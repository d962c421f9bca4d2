import SqlTables.Proofs.TablePosition.Readers

/-!
# `SqlTables.Proofs.TablePosition` — only names in table position are recorded

In a statement without `WITH` and without index hints that have a purpose, which is no schema change, a
reference is recorded only for a name at a place where SQL names tables, however malformed the statement
is: its first part stands behind a word that announces tables, behind the command of a data change, or in
the list that such a place opens.

## Contents
- **`Site`** and **`Sited`**: the places at which references are written.
- **`Env.Sound`**: spans in which references are sited.
- One lemma `…_sited` or `…_finds` for each routine, up to `extract_sited`.
- **`parse_inTablePosition`**: whole summaries.
-/

namespace SqlTables

open TokenSource

/-! ## The places of references -/

/-- A name of one or more parts that is written at a position. -/
structure Site where
  start : Nat
  parts : List Token

namespace Site

/-- The parts with dots between them. -/
def tokens (site : Site) : List Token := site.parts.intersperse (.sym '.')

/-- The position behind the name. -/
def stop (site : Site) : Nat := site.start + site.tokens.length

/-- The name makes for a reference: its last part is the table, and the one before it the schema. -/
structure Names (lower : Bool) (ts : List Token) (site : Site) (r : TableReference) : Prop where
  stands : site.tokens <+: ts.drop site.start
  identifiers : ∀ t ∈ site.parts, t.isIdentifier = true
  table : site.parts.getLast?.map (Token.name lower) = some r.table
  schema : site.parts.dropLast.getLast?.map (Token.name lower) = r.schema

end Site

/-- The references are those of names from position `i` up to `j`, one behind the other, each of them in
    table position. -/
def Sited (type : StatementType) (lower : Bool) (ts : List Token) (i j : Nat)
    (refs : List TableReference) : Prop :=
  ∃ sites : List Site, List.Forall₂ (Site.Names lower ts) sites refs ∧
    sites.Pairwise (fun site later => site.stop ≤ later.start) ∧
    ∀ site ∈ sites, i ≤ site.start ∧ site.stop ≤ j ∧ InTablePosition type ts site.start

variable {type : StatementType} {lower : Bool} {ts s rest : List Token} {level : List Nat}
  {i j k stop : Nat} {refs refs' : List TableReference} {f g : Findings}
  {x : Findings × List Token}

theorem sited_nil (type : StatementType) (lower : Bool) (ts : List Token) (i j : Nat) :
    Sited type lower ts i j [] :=
  ⟨[], .nil, .nil, fun _ hsite => absurd hsite List.not_mem_nil⟩

/-- The references of two parts one behind the other. A site of the first part ends before any site of the
    second one starts. -/
theorem sited_append (hij : i ≤ j) (hjk : j ≤ k) (h : Sited type lower ts i j refs)
    (h' : Sited type lower ts j k refs') : Sited type lower ts i k (refs ++ refs') := by
  obtain ⟨sites, hnames, hapart, hsites⟩ := h
  obtain ⟨sites', hnames', hapart', hsites'⟩ := h'
  refine ⟨sites ++ sites', List.rel_append hnames hnames', ?_, ?_⟩
  · refine List.pairwise_append.mpr ⟨hapart, hapart', ?_⟩
    intro site hsite later hlater
    exact Nat.le_trans (hsites site hsite).2.1 (hsites' later hlater).1
  · intro site hsite
    rcases List.mem_append.mp hsite with hmem | hmem
    · obtain ⟨hstart, hstop, hplace⟩ := hsites site hmem
      exact ⟨hstart, Nat.le_trans hstop hjk, hplace⟩
    · obtain ⟨hstart, hstop, hplace⟩ := hsites' site hmem
      exact ⟨Nat.le_trans hij hstart, hstop, hplace⟩

/-- References of a part of the tokens are references of all of them. -/
theorem sited_within {i' j' : Nat} (hi : i' ≤ i) (hj : j ≤ j')
    (h : Sited type lower ts i j refs) : Sited type lower ts i' j' refs := by
  obtain ⟨sites, hnames, hapart, hsites⟩ := h
  refine ⟨sites, hnames, hapart, ?_⟩
  intro site hsite
  obtain ⟨hstart, hstop, hplace⟩ := hsites site hsite
  exact ⟨Nat.le_trans hi hstart, Nat.le_trans hstop hj, hplace⟩

/-! ## What routines find -/

/-- A routine at position `i` that found `x.1` and left `x.2` on the same level. -/
def Finds (type : StatementType) (lower : Bool) (ts : List Token) (stop : Nat) (level : List Nat)
    (i : Nat) (x : Findings × List Token) : Prop :=
  ∃ j, i ≤ j ∧ At ts stop level j x.2 ∧ Sited type lower ts i j x.1.references

/-- An item of a list: it has tokens of its own, and no clause begins in it. -/
def FindsItem (type : StatementType) (lower : Bool) (ts : List Token) (stop : Nat)
    (level : List Nat) (i : Nat) (x : Findings × List Token) : Prop :=
  ∃ j, i < j ∧ At ts stop level j x.2 ∧ Quiet ts level i j ∧ Sited type lower ts i j x.1.references

theorem finds_of_passes (h : Passes ts stop level i rest) :
    Finds type lower ts stop level i (∅, rest) := by
  obtain ⟨j, hij, hat, _⟩ := h
  exact ⟨j, hij, hat, sited_nil type lower ts i j⟩

/-- What is found behind a position is found from there on. -/
theorem Finds.of_le (hij : i ≤ j) (h : Finds type lower ts stop level j x) :
    Finds type lower ts stop level i x := by
  obtain ⟨k, hjk, hat, hsited⟩ := h
  exact ⟨k, Nat.le_trans hij hjk, hat, sited_within hij (Nat.le_refl k) hsited⟩

theorem FindsItem.finds (h : FindsItem type lower ts stop level i x) :
    Finds type lower ts stop level i x := by
  obtain ⟨j, hij, hat, _, hsited⟩ := h
  exact ⟨j, Nat.le_of_lt hij, hat, hsited⟩

/-- An item with something behind it in which no clause begins. -/
theorem FindsItem.andThen {rest' : List Token} (h : FindsItem type lower ts stop level i (f, rest))
    (h' : ∀ {j}, At ts stop level j rest → Passes ts stop level j rest') :
    FindsItem type lower ts stop level i (f, rest') := by
  obtain ⟨j, hij, hat, hquiet, hsited⟩ := h
  obtain ⟨k, hjk, hat', hquiet'⟩ := h' hat
  exact ⟨k, Nat.lt_of_lt_of_le hij hjk, hat', hquiet.trans hquiet',
    sited_within (Nat.le_refl i) hjk hsited⟩

/-- What is found up to the end of the level, in two parts. -/
theorem Finds.sited_append (h : Finds type lower ts stop level i x)
    (h' : ∀ {j}, At ts stop level j x.2 → Sited type lower ts j stop g.references) :
    Sited type lower ts i stop (x.1 ++ g).references := by
  obtain ⟨j, hij, hat, hsited⟩ := h
  exact SqlTables.sited_append hij hat.le_stop hsited (h' hat)

/-- Spans in which every reference is sited. A list of tables is searched only in table position. -/
structure Env.Sound (type : StatementType) (lower : Bool) (ts : List Token)
    (env : Env (List Token)) : Prop where
  lower_eq : env.lower = lower
  usingTables_eq : env.usingTables = (type == .delete)
  search (place : Place) (bound : List String) {stop level i s} : At ts stop level i s →
    (place = .tableList → InTablePosition type ts i) →
    Sited type lower ts i stop (env.search place bound s).references

variable {env : Env (List Token)} {bound : List String}

/-! ## Tables -/

/-- A name in table position makes for a reference there, or for none where it is bound. -/
theorem sited_record (henv : env.Sound type lower ts) (bound : List String) {name : QualifiedName}
    (site : Site) (hi : InTablePosition type ts site.start) (hstands : site.tokens <+: ts.drop site.start)
    (hparts : ∀ t ∈ site.parts, t.isIdentifier = true)
    (htable : site.parts.getLast? = some name.table)
    (hschema : site.parts.dropLast.getLast? = name.schema) :
    Sited type lower ts site.start site.stop (env.record bound name).references := by
  unfold Env.record
  simp only
  rw [henv.lower_eq]
  split
  · exact sited_nil type lower ts _ _
  · refine ⟨[site], .cons ⟨hstands, hparts, ?_, ?_⟩ .nil, List.pairwise_singleton _ site, ?_⟩
    · rw [htable]
      rfl
    · rw [hschema]
    · intro other hother
      obtain rfl := List.mem_singleton.mp hother
      exact ⟨Nat.le_refl _, Nat.le_refl _, hi⟩

/-- The parts of a name stand where it was read, from its first identifier on. -/
theorem tableName?_sited (henv : env.Sound type lower ts) (h : At ts stop level i s)
    (hi : InTablePosition type ts i) (hx : tableName? env bound s = some x) :
    FindsItem type lower ts stop level i x := by
  obtain ⟨⟨name, r⟩, hq, rfl⟩ := Option.map_eq_some_iff.mp hx
  obtain ⟨first, more, hfirst, hmore, rfl, htable, hschema⟩ := qualifiedName?_parts hq
  have hid := Grammar.isIdentifier_of_startsName hfirst
  obtain ⟨tail, htail⟩ : ∃ tail, (first :: more).intersperse (.sym '.') = first :: tail := by
    cases more with
    | nil => exact ⟨[], rfl⟩
    | cons part more => exact ⟨_, List.intersperse_cons_cons⟩
  have hclause : ¬ BeginsClauseAt ts i := by
    have hat := h
    rw [htail, List.cons_append] at hat
    exact not_beginsClauseAt hat.token (beginsClause_of_startsName hfirst)
  obtain ⟨hat, hquiet⟩ := parts_passes hid hclause hmore h
  have hstands := (List.prefix_append _ r).trans h.stands
  refine ⟨_, ?_, hat, hquiet, ?_⟩
  · rw [htail, List.length_cons]
    omega
  · exact sited_record henv bound ⟨i, first :: more⟩ hi hstands
      (List.forall_mem_cons.mpr ⟨hid, hmore⟩) htable hschema

/-- A name that need not be there. -/
theorem tableName_finds (henv : env.Sound type lower ts) (bound : List String)
    (h : At ts stop level i s) (hi : InTablePosition type ts i) :
    Finds type lower ts stop level i (tableName env bound s) := by
  unfold tableName
  cases hx : tableName? env bound s with
  | none => exact finds_of_passes (passes_self h)
  | some x => exact (tableName?_sited henv h hi hx).finds

/-! ## Lists -/

section

variable (hfor : ∀ t ∈ ts, t.keyword? ≠ some .FOR)

include hfor

/-- An item in table position: its name stands there, and so does what its parentheses hold. -/
theorem tableItem?_sited (henv : env.Sound type lower ts) (h : At ts stop level i s)
    (hi : InTablePosition type ts i) (hx : tableItem? env bound s = some x) :
    FindsItem type lower ts stop level i x := by
  unfold tableItem? at hx
  split at hx
  · next inside hp =>
      cases hx
      obtain rfl := acceptSym?_eq_some_iff.mp hp
      obtain ⟨hspan, j, hij, hat, hquiet⟩ := h.span
      -- The parenthesis stands in table position, and so does what it holds.
      have hsited := henv.search .tableList bound hspan fun _ => .behindParen hi h.token
      have hitem : FindsItem type lower ts stop level i
          (env.search .tableList bound (enclosed inside).1, (enclosed inside).2) :=
        ⟨j, by omega, hat, hquiet, sited_within (Nat.le_succ i) hij hsited⟩
      have hbehind := (hitem.andThen skipAlias_passes).andThen skipSpan_passes
      exact hbehind.andThen (skipIndexHints_passes hfor)
  · split at hx
    · next r hd =>
        cases hx
        obtain ⟨t, ht, rfl⟩ := accept?_eq_some_iff.mp hd
        have hclause : t.isKeyword Keyword.beginsClause = false :=
          beginsClause_of_isKeyword (Grammar.forall_keyword (by decide)) ht
        have hitem : FindsItem type lower ts stop level i (∅, r) :=
          ⟨i + 1, Nat.lt_succ_self i, h.tail (Grammar.ne_sym_of_isKeyword ht '('),
            quiet_one (not_beginsClauseAt h.token hclause), sited_nil type lower ts i _⟩
        exact (hitem.andThen skipAlias_passes).andThen (skipIndexHints_passes hfor)
    · split at hx
      · next found r ht =>
          cases hx
          have hbehind := (tableName?_sited henv h hi ht).andThen skipPartition_passes
          exact (hbehind.andThen skipAlias_passes).andThen (skipIndexHints_passes hfor)
      · cases hx

omit hfor in
/-- Behind an item another table is announced by a comma or by a join. -/
theorem nextTable?_inTablePosition {next : List Token} (hi : InTablePosition type ts i)
    (hij : i < j) (hinner : innermost? ts i = level.head?) (hquiet : Quiet ts level i j)
    (h : At ts stop level j rest) (hn : nextTable? rest = some next) :
    ∃ k, j < k ∧ At ts stop level k next ∧ InTablePosition type ts k := by
  unfold nextTable? at hn
  split at hn
  · next r hc =>
      cases hn
      obtain rfl := acceptSym?_eq_some_iff.mp hc
      refine ⟨j + 1, Nat.lt_succ_self j, h.tail (by decide), ?_⟩
      -- The comma stands on the level of the item, and no clause begins in between.
      refine .behindComma hi hij h.token (hinner.trans h.innermost.symm) ?_
      intro l hl hlj hsame
      exact hquiet l hl hlj (hsame.trans h.innermost)
  · have hpasses : Passes ts stop level j (skipKeywords Keyword.isJoinModifier rest) :=
      skipKeywords_passes (Grammar.forall_keyword (by decide)) h
    obtain ⟨k, hjk, hat, _⟩ := hpasses
    obtain ⟨t, ht, hrest⟩ := accept?_eq_some_iff.mp hn
    rw [hrest] at hat
    have hword : t.isKeyword (Keyword.announcesTable type) = true :=
      Grammar.isKeyword_imp (fun k hk => by cases k <;> first | rfl | cases hk) ht
    exact ⟨k + 1, Nat.lt_succ_of_le hjk, hat.tail (Grammar.ne_sym_of_isKeyword ht '('),
      .behindWord hat.token hword⟩

/-- A list that starts in table position has all of its items there, since only a comma or a join leads to the
    next one and no clause begins in between. -/
theorem tableList_finds (henv : env.Sound type lower ts) (bound : List String) (s : List Token) :
    ∀ {i}, At ts stop level i s → InTablePosition type ts i →
      Finds type lower ts stop level i (tableList env bound s) := by
  fun_induction tableList env bound s
  case case1 bound s hx =>
    intro i h hi
    exact finds_of_passes (passes_self h)
  case case2 bound s found rest hx hn =>
    intro i h hi
    exact (tableItem?_sited hfor henv h hi hx).finds
  case case3 bound s found rest hx next hn more ih =>
    intro i h hi
    obtain ⟨j, hij, hat, hquiet, hsited⟩ := tableItem?_sited hfor henv h hi hx
    have hinner := h.innermost_of_lt (Nat.lt_of_lt_of_le hij hat.le_stop)
    obtain ⟨k, hjk, hat', hi'⟩ := nextTable?_inTablePosition hi hij hinner hquiet hat hn
    obtain ⟨l, hkl, hat'', hmore⟩ := ih hat' hi'
    refine ⟨l, by omega, hat'', ?_⟩
    exact sited_append (Nat.le_of_lt hij) (by omega) hsited
      (sited_within (Nat.le_of_lt hjk) (Nat.le_refl l) hmore)

/-! ## Statements -/

/-- Only `FROM`, a join or a `USING` that lists tables puts what follows it in table position. -/
theorem clause_finds {t : Token} (henv : env.Sound type lower ts)
    (h : At ts stop level i (t :: rest)) :
    Finds type lower ts stop level i (clause env bound t rest) := by
  unfold clause
  by_cases ho : t = .sym '('
  · subst ho
    rw [if_pos rfl]
    obtain ⟨hspan, j, hij, hat, _⟩ := h.span
    have hsited := henv.search .expression bound hspan fun hplace => by cases hplace
    exact ⟨j, by omega, hat, sited_within (Nat.le_succ i) hij hsited⟩
  · rw [if_neg ho]
    have hat := h.tail ho
    have hbehind : Finds type lower ts stop level i (∅, rest) :=
      ⟨i + 1, Nat.le_succ i, hat, sited_nil type lower ts i _⟩
    -- A list starts right behind the word that announces it.
    have hlist : t.isKeyword (Keyword.announcesTable type) = true →
        Finds type lower ts stop level i (tableList env bound rest) := by
      intro hword
      have hfinds : Finds type lower ts stop level (i + 1) (tableList env bound rest) :=
        tableList_finds hfor henv bound rest hat (.behindWord h.token hword)
      exact hfinds.of_le (Nat.le_succ i)
    cases hk : t.keyword? with
    | none => exact hbehind
    | some k =>
        simp only
        have hword := Token.isKeyword_of_keyword? hk (Keyword.announcesTable type)
        split
        · next hjoin =>
            refine hlist (hword.trans ?_)
            cases k <;> first | rfl | cases hjoin
        · split
          · have hpasses : Passes ts stop level (i + 1)
                (skipKeywords Keyword.isSelectModifier rest) :=
              skipKeywords_passes (Grammar.forall_keyword (by decide)) hat
            exact (finds_of_passes hpasses).of_le (Nat.le_succ i)
          · split
            · next husing =>
                rw [Bool.and_eq_true, Bool.and_eq_true, henv.usingTables_eq] at husing
                obtain rfl := beq_iff_eq.mp husing.1.1
                exact hlist (hword.trans husing.1.2)
            · exact hbehind

/-- The rest of a statement is made of such clauses, each at the position where the one in front of it
    ended. -/
theorem body_sited (henv : env.Sound type lower ts) (isTop : Bool) (bound : List String)
    (s : List Token) :
    ∀ {i}, At ts stop level i s → Sited type lower ts i stop (body env isTop bound s).references := by
  fun_induction body env isTop bound s
  case case1 =>
    intro i h
    exact sited_nil type lower ts i stop
  case case2 =>
    intro i h
    exact sited_nil type lower ts i stop
  case case3 bound s t rest hn ht part ih =>
    intro i h
    rw [next?_eq_some_iff.mp hn] at h
    have hfinds : Finds type lower ts stop level i part := clause_finds hfor henv h
    exact hfinds.sited_append ih

omit hfor in
/-- Expressions have references in their parentheses only, at whichever position these stand. -/
theorem expression_sited (henv : env.Sound type lower ts) (bound : List String) (s : List Token) :
    ∀ {i}, At ts stop level i s →
      Sited type lower ts i stop (expression env bound s).references := by
  fun_induction expression env bound s
  case case1 =>
    intro i h
    exact sited_nil type lower ts i stop
  case case2 bound s rest found hn ih =>
    intro i h
    rw [next?_eq_some_iff.mp hn] at h
    obtain ⟨hspan, j, hij, hat, _⟩ := h.span
    have hsited := henv.search .expression bound hspan fun hplace => by cases hplace
    have hfinds : Finds type lower ts stop level i (found, (enclosed rest).2) :=
      ⟨j, by omega, hat, sited_within (Nat.le_succ i) hij hsited⟩
    exact hfinds.sited_append ih
  case case3 bound s t rest hn ht ih =>
    intro i h
    rw [next?_eq_some_iff.mp hn] at h
    exact sited_within (Nat.le_succ i) (Nat.le_refl stop) (ih (h.tail ht))

/-- The tokens `s` at position `i` stand right behind a command: a table may be named behind all the
    modifiers of the command. -/
def TablesAt (type : StatementType) (ts : List Token) (command : StatementType) (i : Nat)
    (s : List Token) : Prop :=
  ∀ p run, command.modifiers? = some p → s = run ++ skipKeywords p s →
    (∀ t ∈ run, t.isKeyword p = true) → (∀ t ∈ (skipKeywords p s).head?, t.isKeyword p = false) →
    InTablePosition type ts (i + run.length)

omit hfor in
/-- A command without modifiers names no tables there. -/
theorem tablesAt_of_modifiers?_none {command : StatementType} (h : command.modifiers? = none) :
    TablesAt type ts command i s := by
  intro p run hp
  rw [h] at hp
  cases hp

/-- The tables of a command that is no schema change. Those of a data change stand behind its
    modifiers. -/
theorem targets_finds {command : StatementType} (henv : env.Sound type lower ts)
    (hddl : command.isDdl = false) (h : At ts stop level i s)
    (htables : TablesAt type ts command i s) :
    Finds type lower ts stop level i (targets env bound command s) := by
  -- The tokens behind the modifiers, with the place where they stand.
  have hbehind : ∀ p, command.modifiers? = some p → (∀ k, p k = true → k.beginsClause = false) →
      ∃ j, i ≤ j ∧ At ts stop level j (skipKeywords p s) ∧ InTablePosition type ts j := by
    intro p hp hclause
    obtain ⟨run, hs, hrun, hlast⟩ := skipKeywords_run p s
    have hat := h
    rw [hs] at hat
    exact ⟨i + run.length, Nat.le_add_right i _, (run_passes hclause hrun hat).1,
      htables p run hp hs hrun hlast⟩
  cases command with
  | insert | replace =>
      obtain ⟨j, hij, hat, hplace⟩ := hbehind _ rfl (Grammar.forall_keyword (by decide))
      exact (tableName_finds henv bound hat hplace).of_le hij
  | update =>
      obtain ⟨j, hij, hat, hplace⟩ := hbehind _ rfl (Grammar.forall_keyword (by decide))
      exact (tableList_finds hfor henv bound _ hat hplace).of_le hij
  | alter | drop | create | truncate => cases hddl
  | select => exact finds_of_passes (skipKeywords_passes (Grammar.forall_keyword (by decide)) h)
  | delete | unknown => exact finds_of_passes (passes_self h)

/-- What follows the command: the tables that it names itself, and the rest. -/
theorem afterOpening_sited {command : StatementType} (henv : env.Sound type lower ts) (isTop : Bool)
    (hddl : command.isDdl = false) (h : At ts stop level i s)
    (htables : TablesAt type ts command i s) :
    Sited type lower ts i stop (afterOpening env isTop bound command s).references := by
  have hfinds : Finds type lower ts stop level i (targets env bound command s) :=
    targets_finds hfor henv hddl h htables
  exact hfinds.sited_append (body_sited hfor henv isTop _ _)

/-! ## Spans -/

section

variable (hwith : ∀ t ∈ ts, t.keyword? ≠ some .WITH)

include hwith

omit hfor in
/-- Without a `WITH` a query starts with `SELECT`. -/
theorem opening_query (env : Env (List Token)) (bound : List String)
    (h : At ts stop level i s) (hq : startsQuery s = true) :
    ∃ t rest, s = t :: rest ∧ t ≠ .sym '(' ∧ opening env bound s = ⟨∅, .select, rest⟩ := by
  cases s with
  | nil => cases hq
  | cons t rest =>
      have hstarts : t.isKeyword Keyword.startsQuery = true := hq
      obtain ⟨k, hk, hkq⟩ := (Option.any_eq_true _ _).mp hstarts
      refine ⟨t, rest, rfl, Grammar.ne_sym_of_isKeyword hstarts '(', ?_⟩
      have hselect : k = .SELECT := by
        cases k <;> first | rfl | cases hkq
        exact absurd hk (hwith t h.mem)
      subst hselect
      rw [opening_eq, next?_cons]
      simp only [hk]
      rfl

/-- A query without `WITH` opens with its `SELECT`, so its references are those behind it. -/
theorem query_sited (henv : env.Sound type lower ts) (bound : List String)
    (h : At ts stop level i s) (hq : startsQuery s = true) :
    Sited type lower ts i stop (query env bound s).references := by
  obtain ⟨t, rest, rfl, ho, hopening⟩ := opening_query hwith env bound h hq
  unfold query
  rw [hopening]
  have hrest : Sited type lower ts (i + 1) stop
      (afterOpening env false (bound ++ []) .select rest).references :=
    afterOpening_sited hfor henv false rfl (h.tail ho) (tablesAt_of_modifiers?_none rfl)
  exact sited_within (Nat.le_succ i) (Nat.le_refl stop) hrest

/-- A span is in table position only if it holds a list of tables; for a query and for expressions nothing is
    asked of the place. -/
theorem span_sited (henv : env.Sound type lower ts) (place : Place) (bound : List String)
    (h : At ts stop level i s) (hi : place = .tableList → InTablePosition type ts i) :
    Sited type lower ts i stop (span env place bound s).references := by
  unfold span
  split
  · next hq => exact query_sited hfor hwith henv bound h hq
  · cases place with
    | expression => exact expression_sited henv bound s h
    | tableList =>
        have hfinds : Finds type lower ts stop level i (tableList env bound s) :=
          tableList_finds hfor henv bound s h (hi rfl)
        exact hfinds.sited_append (body_sited hfor henv false _ _)

/-- However many levels are searched, references are recorded only in table position. -/
theorem sound_nested (type : StatementType) (lower : Bool) (depth : Nat) :
    (Env.nested lower (type == .delete) depth).Sound type lower ts := by
  induction depth with
  | zero =>
      refine ⟨rfl, rfl, ?_⟩
      intro place bound stop level i s h hi
      exact sited_nil type lower ts i stop
  | succ depth ih =>
      refine ⟨rfl, rfl, ?_⟩
      intro place bound stop level i s h hi
      exact span_sited hfor hwith ih place bound h hi

/-! ## Whole statements -/

omit hfor in
/-- Without a `WITH` a statement opens with its command, or its type is unknown or that of a query in
    parentheses. -/
theorem opening_cases (env : Env (List Token)) (bound : List String) :
    (∃ t rest type, ts = t :: rest ∧ t ≠ .sym '(' ∧
        t.keyword?.bind Keyword.statementType? = some type ∧
        opening env bound ts = ⟨∅, type, rest⟩) ∨
      opening env bound ts = ⟨∅, .select, ts⟩ ∨ opening env bound ts = ⟨∅, .unknown, ts⟩ := by
  rw [opening_eq]
  cases ts with
  | nil => exact Or.inr (Or.inr rfl)
  | cons t rest =>
      rw [next?_cons]
      simp only
      cases hk : t.keyword? with
      | none =>
          right
          simp only
          split
          · exact Or.inl rfl
          · exact Or.inr rfl
      | some k =>
          have hne : t ≠ .sym '(' :=
            Grammar.ne_sym_of_isIdentifier (Token.isIdentifier_of_keyword? hk) '('
          have hnot : k ≠ .WITH := fun he => hwith t List.mem_cons_self (he ▸ hk)
          split
          · next he => exact absurd (Option.some.inj he) hnot
          · next he =>
              cases he
              cases htype : k.statementType? with
              | none => exact Or.inr (Or.inr rfl)
              | some type => exact Or.inl ⟨t, rest, type, rfl, hne, by rw [hk]; exact htype, rfl⟩
          · next he => cases he

/-- A whole statement that is no schema change, however it opens. -/
theorem extract_sited (options : Options) (hddl : (extract options .unknown ts).1.isDdl = false) :
    Sited (extract options .unknown ts).1 options.lowerCaseNames ts 0 ts.length
      (extract options .unknown ts).2 := by
  have henv : ∀ type, (Env.nested options.lowerCaseNames (type == .delete) options.maxDepth).Sound
      type options.lowerCaseNames ts := fun type => sound_nested hfor hwith type _ _
  unfold extract at hddl ⊢
  simp only at hddl ⊢
  -- The statement opens with its command, or nothing of it is opened.
  rcases opening_cases hwith (Env.nested options.lowerCaseNames (StatementType.unknown == .delete)
    options.maxDepth) [] with ⟨t, rest, type, hts, ho, hcommand, hopening⟩ | hopening | hopening
  · rw [hopening] at hddl ⊢
    have hstart : At ts ts.length [] 0 (t :: rest) := hts ▸ at_start ts
    have hrest : Sited type options.lowerCaseNames ts 1 ts.length
        (afterOpening (Env.nested options.lowerCaseNames (type == .delete) options.maxDepth) true []
          type rest).references := by
      refine afterOpening_sited hfor (henv type) true hddl (hstart.tail ho) ?_
      intro p run hp hs hrun hlast
      rw [Nat.add_comm]
      exact .behindCommand (hts.trans (congrArg (t :: ·) hs)) hcommand hp hrun hlast
    exact sited_within (Nat.zero_le 1) (Nat.le_refl _) hrest
  · rw [hopening]
    exact afterOpening_sited hfor (henv .select) true rfl (at_start ts)
      (tablesAt_of_modifiers?_none rfl)
  · rw [hopening]
    exact afterOpening_sited hfor (henv .unknown) true rfl (at_start ts)
      (tablesAt_of_modifiers?_none rfl)

end

end

/-- **Only names in table position are recorded.** In a statement without the words `WITH` and `FOR`,
    which is no schema change, the references are those of names that follow one another and share no
    token, each of them with its first part in table position. -/
theorem parse_inTablePosition (options : Options) (text : Bytes)
    (hwith : ∀ t ∈ text.tokens, t.keyword? ≠ some .WITH)
    (hfor : ∀ t ∈ text.tokens, t.keyword? ≠ some .FOR)
    (hddl : (parse options text).type.isDdl = false) :
    ∃ sites : List Site,
      List.Forall₂ (Site.Names options.lowerCaseNames text.tokens) sites
        (parse options text).references ∧
      sites.Pairwise (fun site later => site.stop ≤ later.start) ∧
      ∀ site ∈ sites, InTablePosition (parse options text).type text.tokens site.start := by
  have hextract : extract options .unknown text = extract options .unknown text.tokens :=
    extract_tokens options .unknown text
  have htype : (parse options text).type = (extract options .unknown text.tokens).1 :=
    congrArg Prod.fst hextract
  have hrefs : (parse options text).references = (extract options .unknown text.tokens).2 :=
    congrArg Prod.snd hextract
  rw [htype] at hddl ⊢
  rw [hrefs]
  obtain ⟨sites, hnames, hapart, hsites⟩ := extract_sited hfor hwith options hddl
  exact ⟨sites, hnames, hapart, fun site hsite => (hsites site hsite).2.2⟩

/-- Behind the clause `SET` a comma and a name make no table. -/
theorem parse_inTablePosition_update :
    let text := ascii "UPDATE IGNORE a AS x, (s.`b`, c.d.e) SET x.v = 1, f = (SELECT 1 FROM g, h)"
    (∀ t ∈ text.tokens, t.keyword? ≠ some .WITH) ∧ (∀ t ∈ text.tokens, t.keyword? ≠ some .FOR) ∧
      (parse {} text).type.isDdl = false ∧
      (parse {} text).references =
        [⟨none, "a"⟩, ⟨some "s", "b"⟩, ⟨some "d", "e"⟩, ⟨none, "g"⟩, ⟨none, "h"⟩] ∧
      ∃ sites : List Site,
        List.Forall₂ (Site.Names false text.tokens) sites (parse {} text).references ∧
        sites.Pairwise (fun site later => site.stop ≤ later.start) ∧
        ∀ site ∈ sites, InTablePosition (parse {} text).type text.tokens site.start := by
  intro text
  have hwith : ∀ t ∈ text.tokens, t.keyword? ≠ some .WITH := by decide +kernel
  have hfor : ∀ t ∈ text.tokens, t.keyword? ≠ some .FOR := by decide +kernel
  have hddl : (parse {} text).type.isDdl = false := by decide +kernel
  refine ⟨hwith, hfor, hddl, ?_, parse_inTablePosition {} text hwith hfor hddl⟩
  decide +kernel

end SqlTables
