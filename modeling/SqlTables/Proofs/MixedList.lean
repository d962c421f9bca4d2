import SqlTables.Proofs.Selection

/-!
# `SqlTables.Proofs.MixedList` — commas and joins in one list

The condition of a join ends the list of tables. Behind it only a join, or another `FROM`, starts a list
again, and a comma does not. So of tables that are separated by commas and joins in any order all are
recorded, unless a comma stands right behind a condition: from there on tables are passed up to the next
join.

## Contents
- **`MixedList`**: tables behind commas and joins, some of them with a condition.
- **`MixedList.recorded`**: the tables that are not passed.
- **`CommaBehindCondition`** and `recorded_eq_tables`: when that is all of them.
- **`read_following`**: a list from a table on, and behind a condition.
- **`parse_mixedList`**: whole statements.
-/

namespace SqlTables

open TokenSource Grammar

/-! ## Lists -/

/-- A table whose name holds no clause word. -/
structure PlainTable where
  name : TableName
  inert : ∀ t ∈ name.tokens, isInert false t = true

/-- A table in grave accents. -/
def PlainTable.backtick (content : Bytes) : PlainTable where
  name := .plain ⟨.quoted .backtick content, rfl, rfl⟩
  inert := by
    intro t ht
    rw [List.mem_singleton.mp ht]
    rfl

def PlainTable.reference (lower : Bool) (table : PlainTable) : TableReference :=
  table.name.reference lower

/-- The condition of a join, without parentheses, commas and clause words. -/
structure PlainCondition where
  on : KeywordToken (· == .ON)
  parts : List { t : Token // Slot.condition.allows false t = true }

def PlainCondition.tokens (condition : PlainCondition) : List Token :=
  condition.on.1 :: condition.parts.map Subtype.val

/-- A table with what separates it from the one in front of it. -/
inductive Follower where
  | comma (table : PlainTable)
  | join (join : Join) (table : PlainTable) (condition : Option PlainCondition)

def Follower.table : Follower → PlainTable
  | .comma table => table
  | .join _ table _ => table

def Follower.tokens : Follower → List Token
  | .comma table => .sym ',' :: table.name.tokens
  | .join words table condition =>
      words.tokens ++ (table.name.tokens ++ condition.elim [] PlainCondition.tokens)

/-- The tokens of tables that follow another one. -/
def following (followers : List Follower) : List Token := followers.flatMap Follower.tokens

/-- `SELECT * FROM` and tables. -/
structure MixedList where
  select : KeywordToken (· == .SELECT)
  from_ : KeywordToken (· == .FROM)
  first : PlainTable
  followers : List Follower

def MixedList.tokens (list : MixedList) : List Token :=
  list.select.1 :: .sym '*' :: list.from_.1 :: (list.first.name.tokens ++ following list.followers)

def MixedList.tables (list : MixedList) : List PlainTable :=
  list.first :: list.followers.map Follower.table

/-! ## Tables that are passed -/

/-- The tables that are recorded, where a list goes on (`inList`) or a condition has ended it. -/
def recordedFollowers (inList : Bool) : List Follower → List PlainTable
  | [] => []
  | .comma table :: rest =>
      if inList then table :: recordedFollowers true rest else recordedFollowers false rest
  | .join _ table condition :: rest => table :: recordedFollowers condition.isNone rest

def MixedList.recorded (list : MixedList) : List PlainTable :=
  list.first :: recordedFollowers true list.followers

/-- What is recorded is a part of what stands there, whether a comma still separates items or not. -/
theorem recordedFollowers_sublist (inList : Bool) (followers : List Follower) :
    List.Sublist (recordedFollowers inList followers) (followers.map Follower.table) := by
  induction followers generalizing inList with
  | nil => exact List.Sublist.refl _
  | cons follower rest ih =>
      cases follower with
      | comma table =>
          cases inList with
          | true => exact (ih true).cons_cons table
          | false => exact (ih false).cons table
      | join join table condition => exact (ih condition.isNone).cons_cons table

/-- A table in front of which a comma stands right behind a condition. -/
def CommaBehindCondition (followers : List Follower) : Prop :=
  ∃ front join table condition next rest,
    followers = front ++ .join join table (some condition) :: .comma next :: rest

/-- A comma at the front is behind no condition. -/
theorem commaBehindCondition_comma {table : PlainTable} {rest : List Follower} :
    CommaBehindCondition (.comma table :: rest) ↔ CommaBehindCondition rest := by
  constructor
  · rintro ⟨front, join, table', condition, next, behind, h⟩
    cases front with
    | nil => cases (List.cons.inj h).1
    | cons _ front => exact ⟨front, join, table', condition, next, behind, (List.cons.inj h).2⟩
  · rintro ⟨front, join, table', condition, next, behind, rfl⟩
    exact ⟨.comma table :: front, join, table', condition, next, behind, rfl⟩

/-- A join at the front counts if it has a condition and a comma comes next. -/
theorem commaBehindCondition_join {join : Join} {table : PlainTable} {condition : Option PlainCondition}
    {rest : List Follower} :
    CommaBehindCondition (.join join table condition :: rest) ↔
      (condition.isSome = true ∧ ∃ next behind, rest = .comma next :: behind) ∨
        CommaBehindCondition rest := by
  constructor
  · rintro ⟨front, join', table', condition', next, behind, h⟩
    cases front with
    | nil =>
        obtain ⟨hjoin, hrest⟩ := List.cons.inj h
        cases hjoin
        exact Or.inl ⟨rfl, next, behind, hrest⟩
    | cons _ front =>
        exact Or.inr ⟨front, join', table', condition', next, behind, (List.cons.inj h).2⟩
  · rintro (⟨hsome, next, behind, rfl⟩ | ⟨front, join', table', condition', next, behind, rfl⟩)
    · obtain ⟨condition, rfl⟩ := Option.isSome_iff_exists.mp hsome
      exact ⟨[], join, table, condition, next, behind, rfl⟩
    · exact ⟨.join join table condition :: front, join', table', condition', next, behind, rfl⟩

/-- No table is passed where the list goes on or no comma comes first, and no comma stands behind a
    condition further on. -/
theorem length_recordedFollowers (inList : Bool) (followers : List Follower) :
    (recordedFollowers inList followers).length = followers.length ↔
      (inList = true ∨ ∀ next behind, followers ≠ .comma next :: behind) ∧
        ¬ CommaBehindCondition followers := by
  induction followers generalizing inList with
  | nil => simp [recordedFollowers, CommaBehindCondition]
  | cons follower rest ih =>
      cases follower with
      | comma table =>
          rw [commaBehindCondition_comma]
          cases inList with
          | true => simp [recordedFollowers, ih]
          | false =>
              have hle : (recordedFollowers false rest).length ≤ rest.length := by
                simpa using (recordedFollowers_sublist false rest).length_le
              constructor
              · intro heq
                have hlt : (recordedFollowers false rest).length = rest.length + 1 := heq
                omega
              · rintro ⟨hfirst | hfirst, -⟩
                · cases hfirst
                · exact absurd rfl (hfirst table rest)
      | join join table condition =>
          rw [commaBehindCondition_join]
          show (recordedFollowers condition.isNone rest).length + 1 = rest.length + 1 ↔ _
          rw [Nat.add_right_cancel_iff, ih]
          cases condition with
          | none => simp
          | some condition => simp

/-- The tables that are recorded are some of the tables of the list, in their order. -/
theorem recorded_sublist (list : MixedList) : List.Sublist list.recorded list.tables :=
  (recordedFollowers_sublist true list.followers).cons_cons list.first

/-- All tables are recorded if and only if no comma stands behind a condition. -/
theorem recorded_eq_tables (list : MixedList) :
    list.recorded = list.tables ↔ ¬ CommaBehindCondition list.followers := by
  have hlength := length_recordedFollowers true list.followers
  simp only [true_or, true_and] at hlength
  rw [← hlength]
  constructor
  · intro hall
    have hrest := congrArg List.length (List.cons.inj hall).2
    rwa [List.length_map] at hrest
  · intro hrest
    apply (recorded_sublist list).eq_of_length
    simp [MixedList.recorded, MixedList.tables, hrest]

/-! ## Reading a list -/

variable {env : Env (List Token)} {isTop : Bool} {z : List Token} {rest : List Follower}

/-- A condition without parentheses has no table. -/
theorem body_plainCondition (henv : env.usingTables = false) (condition : PlainCondition)
    (z : List Token) : body env isTop [] (condition.tokens ++ z) = body env isTop [] z := by
  show body env isTop [] (condition.on.1 :: (condition.parts.map Subtype.val ++ z)) = _
  rw [body_word (forall_keyword (by decide))]
  apply body_inerts henv
  intro t ht
  obtain ⟨part, -, rfl⟩ := List.mem_map.mp ht
  exact isInert_of_allows (Or.inr rfl) part.2

/-- A table without an alias is read as an item of its own. -/
theorem tableItem?_plainTable (env : Env (List Token)) (table : PlainTable) (hz : Starts EndsItem z) :
    tableItem? env [] (table.name.tokens ++ z) =
      some (.ofReferences [table.reference env.lower], z) := by
  have htokens : (Item.table table.name none none [] : Item false).tokens = table.name.tokens := by
    simp [Item.tokens, partitionTokens]
  rw [← htokens, tableItem?_table table.name none none [] hz]
  rfl

theorem following_comma (table : PlainTable) (rest : List Follower) :
    following (.comma table :: rest) = .sym ',' :: (table.name.tokens ++ following rest) := rfl

theorem following_join (words : Join) (table : PlainTable) (condition : Option PlainCondition)
    (rest : List Follower) :
    following (.join words table condition :: rest) =
      words.tokens ++ (table.name.tokens ++
        (condition.elim [] PlainCondition.tokens ++ following rest)) := by
  show words.tokens ++ (table.name.tokens ++ _) ++ following rest = _
  simp only [List.append_assoc]

/-- A table of a join: without a condition the list goes on behind it. -/
theorem listed_joined (henv : env.usingTables = false) (table : PlainTable)
    (condition : Option PlainCondition)
    (hlist : listed env isTop (table.name.tokens ++ following rest) =
      .ofReferences ((table :: recordedFollowers true rest).map (PlainTable.reference env.lower)))
    (hbody : body env isTop [] (following rest) =
      .ofReferences ((recordedFollowers false rest).map (PlainTable.reference env.lower))) :
    listed env isTop (table.name.tokens ++ (condition.elim [] PlainCondition.tokens ++ following rest)) =
      .ofReferences ((table :: recordedFollowers condition.isNone rest).map
        (PlainTable.reference env.lower)) := by
  cases condition with
  | none => exact hlist
  | some condition =>
      have hends : Starts (fun t => t.isKeyword endsTables = true)
          (condition.tokens ++ following rest) :=
        starts_cons (isKeyword_imp (forall_keyword (by decide)) condition.on.2)
      have hitem := tableItem?_plainTable env table
        (starts_imp (fun _ => endsItem_of_endsTables) hends)
      show listed env isTop (table.name.tokens ++ (condition.tokens ++ following rest)) = _
      rw [listed_last hitem (nextTable?_stop hends), body_plainCondition henv, hbody]
      rfl

/-- A list from a table on, and what the rest of a statement finds of it behind a condition. -/
theorem read_following (isTop : Bool) (henv : env.usingTables = false) (followers : List Follower) :
    (∀ table : PlainTable, listed env isTop (table.name.tokens ++ following followers) =
      .ofReferences ((table :: recordedFollowers true followers).map
        (PlainTable.reference env.lower))) ∧
    body env isTop [] (following followers) =
      .ofReferences ((recordedFollowers false followers).map (PlainTable.reference env.lower)) := by
  -- Both at once: a comma behind a condition turns the list into the rest of a
  -- statement, and a join turns it back.
  induction followers with
  | nil =>
      refine ⟨fun table => ?_, body_nil env isTop []⟩
      have hitem := tableItem?_plainTable env table starts_nil
      show listed env isTop (table.name.tokens ++ []) = _
      rw [listed_last hitem (nextTable?_stop starts_nil)]
      exact (congrArg (_ ++ ·) (body_nil env isTop [])).trans (Findings.append_empty _)
  | cons follower rest ih =>
      obtain ⟨hlist, hbody⟩ := ih
      cases follower with
      | comma next =>
          rw [following_comma]
          constructor
          · intro table
            have hcomma : Starts EndsItem (.sym ',' :: (next.name.tokens ++ following rest)) :=
              starts_cons (Or.inl rfl)
            have hitem := tableItem?_plainTable env table hcomma
            have hnext := nextTable?_separator .comma (next.name.tokens ++ following rest)
            rw [listed_next hitem hnext, hlist next]
            rfl
          · -- The comma and the name are passed like any other tokens behind a condition.
            rw [body_inert henv (by decide), body_inerts henv next.inert, hbody]
            rfl
      | join words next condition =>
          rw [following_join]
          have hnext := listed_joined henv next condition (hlist next) hbody
          constructor
          · intro table
            rw [listed_next (tableItem?_plainTable env table (endsItem_join words _))
              (nextTable?_join words _), hnext]
            rfl
          · rw [body_join, hnext]
            rfl

/-- Reading the whole list records what `recorded` keeps. -/
theorem body_mixedList (options : Options) (list : MixedList) :
    body (.outer options .select) true [] list.tokens =
      .ofReferences (list.recorded.map (PlainTable.reference options.lowerCaseNames)) := by
  have hstar : Starts (fun t => t.isKeyword Keyword.isSelectModifier = false)
      (.sym '*' :: list.from_.1 :: (list.first.name.tokens ++ following list.followers)) :=
    starts_cons rfl
  have henv : (Env.outer options .select : Env (List Token)).usingTables = false :=
    usingTables_nested _ _ _
  obtain ⟨hlisted, -⟩ := read_following true henv list.followers
  rw [MixedList.tokens, body_select, skipKeywords_stop hstar, body_inert henv (by decide),
    body_tables (forall_keyword (by decide)), hlisted list.first, lower_outer]
  rfl

/-! ## Whole statements -/

/-- **Which tables of a mixed list are recorded.** All of them but those that follow a comma right behind a
    condition, up to the next join; so all of them if and only if no comma stands there. -/
theorem parse_mixedList {text : Bytes} {list : MixedList} {options : Options}
    (ht : text.tokens = list.tokens) :
    parse options text =
      { type := .select
        references := list.recorded.map (PlainTable.reference options.lowerCaseNames) } ∧
    ((parse options text).references =
        list.tables.map (PlainTable.reference options.lowerCaseNames) ↔
      ¬ CommaBehindCondition list.followers) := by
  have hquery : BareQuery list.tokens := .select (keyword?_of_isKeyword list.select.2)
  have hparse : parse options text =
      { type := .select
        references := list.recorded.map (PlainTable.reference options.lowerCaseNames) } := by
    rw [parse_eq_tokens, ht, command_bareQuery hquery, statement_eq_body options [] hquery,
      body_mixedList]
    rfl
  refine ⟨hparse, ?_⟩
  rw [hparse, ← recorded_eq_tables list]
  constructor
  · intro href
    -- The tables that are recorded are some of them in order, so as many are all of them.
    apply (recorded_sublist list).eq_of_length
    have hlength := congrArg List.length href
    rwa [List.length_map, List.length_map] at hlength
  · intro hall
    exact congrArg (List.map (PlainTable.reference options.lowerCaseNames)) hall

/-- A list with a comma right behind a condition. -/
def interruptedList : MixedList where
  select := ⟨.word (ascii "SELECT"), isKeyword_name .SELECT⟩
  from_ := ⟨.word (ascii "FROM"), isKeyword_name .FROM⟩
  first := .backtick (ascii "a")
  followers :=
    [.join ⟨[], ⟨.word (ascii "JOIN"), isKeyword_join⟩⟩ (.backtick (ascii "b"))
        (some ⟨⟨.word (ascii "ON"), isKeyword_name .ON⟩,
          [⟨.word (ascii "x"), by decide⟩, ⟨.sym '=', by decide⟩,
            ⟨.word (ascii "y"), by decide⟩]⟩),
      .comma (.backtick (ascii "c"))]

/-- The list has three tables, of which the last one is not recorded. -/
theorem parse_interruptedList :
    let text := ascii "SELECT * FROM `a` JOIN `b` ON x = y , `c`"
    text.tokens = interruptedList.tokens ∧
      interruptedList.tables.map (PlainTable.reference false) =
        [⟨none, "a"⟩, ⟨none, "b"⟩, ⟨none, "c"⟩] ∧
      (parse {} text).references = [⟨none, "a"⟩, ⟨none, "b"⟩] := by
  refine ⟨?_, ?_, ?_⟩
  · decide +kernel
  · decide +kernel
  · decide +kernel

/-- The list goes on: behind another join its tables count again. -/
def resumedList : MixedList :=
  { interruptedList with
    followers := interruptedList.followers ++
      [.join ⟨[⟨.word (ascii "LEFT"), by decide⟩], ⟨.word (ascii "JOIN"), isKeyword_join⟩⟩
          (.backtick (ascii "d")) none,
        .comma (.backtick (ascii "e"))] }

/-- Behind a condition `c` is missed, and the join behind that resumes the list, so that `e` is recorded. -/
theorem parse_mixedList_resumed :
    let text := ascii "SELECT * FROM `a` JOIN `b` ON x = y , `c` LEFT JOIN `d`, `e`"
    text.tokens = resumedList.tokens ∧
      (parse {} text).references = [⟨none, "a"⟩, ⟨none, "b"⟩, ⟨none, "d"⟩, ⟨none, "e"⟩] ∧
      CommaBehindCondition resumedList.followers := by
  intro text
  have ht : text.tokens = resumedList.tokens := by decide +kernel
  obtain ⟨hparse, hiff⟩ := @parse_mixedList text resumedList {} ht
  have hrecorded : resumedList.recorded.map (PlainTable.reference false) =
      [⟨none, "a"⟩, ⟨none, "b"⟩, ⟨none, "d"⟩, ⟨none, "e"⟩] := by decide +kernel
  refine ⟨ht, ?_, ?_⟩
  · rw [hparse]
    exact hrecorded
  · have hall : resumedList.tables.map (PlainTable.reference false) ≠
        [⟨none, "a"⟩, ⟨none, "b"⟩, ⟨none, "d"⟩, ⟨none, "e"⟩] := by decide +kernel
    by_contra hnone
    have hreferences := hiff.mpr hnone
    rw [hparse] at hreferences
    exact hall (hreferences.symm.trans hrecorded)

end SqlTables
