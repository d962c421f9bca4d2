import SqlTables.Proofs.Grammar.Leaves
import SqlTables.Proofs.Transparency

/-!
# `SqlTables.Proofs.Completeness` — no table of a query is missed

Reading the tokens of a tree finds exactly the tables of the tree, in the order of the text. Each routine
reads its part of the tree and leaves what follows, and the routines hand the statement to each other as
the trees contain each other: a list of tables may go on behind a condition that the body has read.

## Contents
- **`ofReferences`**, **`listed`**: findings without names; a list of tables with the clause behind it.
- **Tokens in a clause**: `body_inert`, `body_condition`, `body_join`.
- **Trees**: one lemma for each kind, from `body_query_append` to `expression_parts`.
- **`parse_query`**: whole statements.
-/

namespace SqlTables

open TokenSource Grammar

/-! ## Findings of a tree -/

/-- References and no name. -/
def Findings.ofReferences (references : List TableReference) : Findings := ⟨references, []⟩

theorem ofReferences_append (a b : List TableReference) :
    Findings.ofReferences a ++ .ofReferences b = .ofReferences (a ++ b) := rfl

/-- A list of tables and the clause behind it. -/
def listed (env : Env (List Token)) (isTop : Bool) (s : List Token) : Findings :=
  (tableList env [] s).1 ++ body env isTop (tableList env [] s).1.bound (tableList env [] s).2

variable {env : Env (List Token)} {isTop : Bool} {t : Token} {s z : List Token}

/-! ## Tokens in a clause -/

theorem body_nil (env : Env (List Token)) (isTop : Bool) (bound : List String) :
    body env isTop bound ([] : List Token) = ∅ := by
  rw [body_eq]
  rfl

/-- The rest of a statement, one token at a time. -/
theorem body_cons (env : Env (List Token)) (isTop : Bool) (ht : t ≠ .sym ';') (z : List Token) :
    body env isTop [] (t :: z) =
      (clause env [] t z).1 ++ body env isTop (clause env [] t z).1.bound (clause env [] t z).2 := by
  rw [body_eq]
  show (if isTop ∧ t = .sym ';' then ∅ else _) = _
  rw [if_neg fun h => ht h.2]
  rfl

/-- What fills a level leaves nothing for the rest of it. -/
theorem body_of_append {f : Findings}
    (h : body env isTop [] (s ++ []) = f ++ body env isTop [] ([] : List Token)) :
    body env isTop [] s = f := by
  rw [List.append_nil, body_nil, Findings.append_empty] at h
  exact h

/-- A token that contributes nothing and is passed. -/
theorem body_skip (ht : t ≠ .sym ';') (h : clause env [] t z = (∅, s)) :
    body env isTop [] (t :: z) = body env isTop [] s := by
  rw [body_cons env isTop ht, h]
  exact Findings.empty_append _

/-- A token that is inert starts no list of tables, no span and no modifiers. -/
theorem clause_inert {usingTables : Bool} (henv : env.usingTables = usingTables)
    (h : isInert usingTables t = true) (z : List Token) : clause env [] t z = (∅, z) := by
  subst henv
  obtain ⟨hplain, hword⟩ := Bool.and_eq_true _ _ ▸ h
  obtain ⟨ho, _, _⟩ := ne_sym_of_isPlain hplain
  unfold clause
  rw [if_neg ho]
  cases hk : t.keyword? with
  | none => rfl
  | some k =>
      rw [Token.isKeyword_of_keyword? hk, Bool.not_eq_true', Bool.or_eq_false_iff,
        Bool.or_eq_false_iff, Bool.or_eq_false_iff] at hword
      obtain ⟨⟨⟨hselect, hfrom⟩, hjoin⟩, husing⟩ := hword
      simp only [hselect, hfrom, hjoin, husing, Bool.or_self, Bool.false_and, Bool.false_eq_true,
        if_false]

theorem body_inert {usingTables : Bool} (henv : env.usingTables = usingTables)
    (h : isInert usingTables t = true) (z : List Token) :
    body env isTop [] (t :: z) = body env isTop [] z :=
  body_skip (ne_sym_of_isPlain (Bool.and_eq_true _ _ ▸ h).1).2.2 (clause_inert henv h z)

/-- Any number of them are passed over. -/
theorem body_inerts {usingTables : Bool} (henv : env.usingTables = usingTables) {a : List Token}
    (ha : ∀ t ∈ a, isInert usingTables t = true) (z : List Token) :
    body env isTop [] (a ++ z) = body env isTop [] z := by
  induction a with
  | nil => rfl
  | cons t a ih =>
      obtain ⟨ht, ha⟩ := List.forall_mem_cons.mp ha
      rw [List.cons_append, body_inert henv ht]
      exact ih ha

/-- Words that start nothing of their own in any clause. -/
def isQuiet (k : Keyword) : Bool := !(k == .SELECT || k == .FROM || k.isJoin || k == .USING)

theorem isPlain_of_isIdentifier (h : t.isIdentifier = true) : isPlain t = true := by
  have hne := ne_sym_of_isIdentifier h
  simp only [isPlain, beq_eq_false_iff_ne.mpr (hne _), Bool.or_self, Bool.not_false]

/-- Quoted names and words that are no keywords start nothing. -/
theorem isInert_of_isIdentifier (h : t.isIdentifier = true) (hk : t.keyword? = none)
    (usingTables : Bool) : isInert usingTables t = true := by
  rw [isInert, isPlain_of_isIdentifier h, Token.isKeyword, hk]
  rfl

/-- A quiet keyword is inert, whether `USING` lists tables or not. -/
theorem isInert_of_isKeyword {p : Keyword → Bool} (hp : ∀ k, p k = true → isQuiet k = true)
    (h : t.isKeyword p = true) (usingTables : Bool) : isInert usingTables t = true := by
  have hplain : isPlain t = true := isPlain_of_isIdentifier (isIdentifier_of_isKeyword h)
  have hword : t.isKeyword (fun k => k == .SELECT || k == .FROM || k.isJoin ||
      k == .USING && usingTables) = false := by
    refine isKeyword_disjoint (fun k hk => ?_) h
    have hq := hp k hk
    simp only [isQuiet, Bool.not_eq_true', Bool.or_eq_false_iff] at hq
    simp only [hq, Bool.false_and, Bool.or_self]
  rw [isInert, hplain, hword]
  rfl

theorem body_word {p : Keyword → Bool} (hp : ∀ k, p k = true → isQuiet k = true)
    (w : KeywordToken p) (z : List Token) :
    body env isTop [] (w.1 :: z) = body env isTop [] z :=
  body_inert rfl (isInert_of_isKeyword hp w.2 _) z

/-- Quiet keywords in a row are passed over. -/
theorem body_words {p : Keyword → Bool} (hp : ∀ k, p k = true → isQuiet k = true)
    (ws : List (KeywordToken p)) (z : List Token) :
    body env isTop [] (words ws ++ z) = body env isTop [] z := by
  induction ws with
  | nil => rfl
  | cons w ws ih =>
      rw [← ih]
      exact body_word hp w _

/-- Behind `FROM` and behind a join there is a list of tables. -/
theorem clause_tables {p : Keyword → Bool} (hp : ∀ k, p k = true → (k == .FROM || k.isJoin) = true)
    (w : KeywordToken p) (z : List Token) : clause env [] w.1 z = tableList env [] z := by
  obtain ⟨k, hk, hw⟩ := (Option.any_eq_true _ _).mp w.2
  unfold clause
  rw [if_neg (ne_sym_of_isKeyword w.2 '('), hk]
  exact if_pos (hp k hw)

/-- `FROM` and `JOIN` start a list. -/
theorem body_tables {p : Keyword → Bool} (hp : ∀ k, p k = true → (k == .FROM || k.isJoin) = true)
    (w : KeywordToken p) (z : List Token) : body env isTop [] (w.1 :: z) = listed env isTop z := by
  rw [body_cons env isTop (ne_sym_of_isKeyword w.2 ';'), clause_tables hp]
  rfl

/-- A join behind a condition, which the body reads. -/
theorem body_join (join : Join) (z : List Token) :
    body env isTop [] (join.tokens ++ z) = listed env isTop z := by
  obtain ⟨modifiers, join⟩ := join
  have hassoc : Join.tokens ⟨modifiers, join⟩ ++ z = words modifiers ++ join.1 :: z :=
    List.append_assoc _ _ _
  rw [hassoc, body_words (forall_keyword (by decide))]
  exact body_tables (forall_keyword (by decide)) join z

/-- Behind a `SELECT` its modifiers are passed over, so a `STRAIGHT_JOIN` among them joins nothing. -/
theorem clause_keyword_select (env : Env (List Token)) (bound : List String)
    (hk : t.keyword? = some .SELECT) (z : List Token) :
    clause env bound t z = (∅, skipKeywords Keyword.isSelectModifier z) := by
  have hopen : t ≠ .sym '(' := by
    rintro rfl
    cases hk
  unfold clause
  rw [if_neg hopen, hk]
  rfl

theorem clause_select (w : KeywordToken (· == .SELECT)) (z : List Token) :
    clause env [] w.1 z = (∅, skipKeywords Keyword.isSelectModifier z) :=
  clause_keyword_select env [] (keyword?_of_isKeyword w.2) z

theorem body_select (w : KeywordToken (· == .SELECT)) (z : List Token) :
    body env isTop [] (w.1 :: z) = body env isTop [] (skipKeywords Keyword.isSelectModifier z) :=
  body_skip (ne_sym_of_isKeyword w.2 ';') (clause_select w z)

/-- A `USING` in front of a parenthesis starts no list. -/
theorem body_using (w : KeywordToken (· == .USING)) (a z : List Token) :
    body env isTop [] (w.1 :: (enclose a ++ z)) = body env isTop [] (enclose a ++ z) := by
  refine body_skip (ne_sym_of_isKeyword w.2 ';') ?_
  have hopen : (acceptSym? '(' (enclose a ++ z)).isNone = false := rfl
  unfold clause
  rw [if_neg (ne_sym_of_isKeyword w.2 '('), keyword?_of_isKeyword w.2, hopen]
  simp only [Bool.and_false]
  rfl

/-- What stands in parentheses in a clause is searched, and the rest goes on behind the names that it
    binds. -/
theorem body_enclose {a : List Token} (ha : Balanced a) (z : List Token) :
    body env isTop [] (enclose a ++ z) =
      env.search .expression [] a ++ body env isTop (env.search .expression [] a).bound z := by
  have hspan : enclosed (a ++ .sym ')' :: z) = (a, z) := closeSpan_balanced ha z
  have hclause : clause env [] (.sym '(') (a ++ .sym ')' :: z) =
      (env.search .expression [] a, z) := by
    unfold clause
    rw [if_pos rfl, hspan]
  rw [enclose_append, body_cons env isTop (by decide), hclause]

/-! ## Where trees start and end -/

theorem starts_tableName {P : Token → Prop} (hP : ∀ start : NameStart, P start.1) (name : TableName)
    (z : List Token) : Starts P (name.tokens ++ z) := by
  cases name with
  | plain table => exact starts_cons (hP table)
  | qualified schema table => exact starts_cons (hP schema)

theorem dual_nameStart (start : NameStart) : start.1.isKeyword (· == .DUAL) = false := by
  have hword := start.2.2
  rw [Bool.eq_false_iff] at hword ⊢
  exact mt (isKeyword_imp (forall_keyword (by decide))) hword

/-- The start of a name is not read as the start of a query. -/
theorem startsQuery_nameStart (start : NameStart) : start.1.isKeyword Keyword.startsQuery = false := by
  obtain ⟨t, hname, hword⟩ := start
  have hends : t.isKeyword Keyword.endsTableList = false :=
    Bool.not_eq_true' _ ▸ (Bool.and_eq_true _ _ ▸ hname).2
  cases hk : t.keyword? with
  | none => rw [Token.isKeyword, hk, Option.any_none]
  | some k =>
      rw [Token.isKeyword_of_keyword? hk] at hends hword ⊢
      clear hk hname
      revert k
      exact forall_keyword (by decide)

/-- What follows a label of a table is no label: a hint starts with a keyword. -/
theorem starts_hints (hints : List Hint) (h : Starts EndsItem z) :
    Starts LacksAlias (hints.flatMap Hint.tokens ++ z) := by
  cases hints with
  | nil => exact starts_imp (fun _ => lacksAlias_of_endsItem) h
  | cons hint hints =>
      exact starts_cons (Or.inr (isKeyword_imp (forall_keyword (by decide)) hint.action.2))

/-- What follows the name of a table neither continues it nor starts a list of partitions. -/
theorem starts_label (label : Option Alias) (h : Starts LacksAlias z) :
    Starts (fun t => t ≠ .sym '.' ∧ t.isKeyword (· == .PARTITION) = false)
      (label.elim [] Alias.tokens ++ z) := by
  cases label with
  | none =>
      refine starts_imp (fun t ht => ⟨ne_sym_of_lacksAlias (by decide) ht, ?_⟩) h
      rcases ht with rfl | ht
      · rfl
      · exact isKeyword_disjoint (forall_keyword (by decide)) ht
  | some label =>
      cases label with
      | plain name =>
          refine starts_cons ⟨ne_sym_of_isIdentifier name.2.1 '.', ?_⟩
          rw [Token.isKeyword, name.2.2, Option.any_none]
      | behindAs as name =>
          exact starts_cons ⟨ne_sym_of_isKeyword as.2 '.',
            isKeyword_disjoint (forall_keyword (by decide)) as.2⟩

variable {usingTables : Bool}

theorem endsItem_word {p : Keyword → Bool} (hp : ∀ k, p k = true → endsItem k = true)
    (w : KeywordToken p) (z : List Token) : Starts EndsItem (w.1 :: z) :=
  starts_cons (Or.inr (isKeyword_imp hp w.2))

/-- A condition ends the item in front of it. -/
theorem endsItem_condition (condition : Condition usingTables) (z : List Token) :
    Starts EndsItem (condition.tokens ++ z) := by
  cases condition with
  | on on parts => exact endsItem_word (forall_keyword (by decide)) on _
  | columns using_ names => exact endsItem_word (forall_keyword (by decide)) using_ _

/-- So does a join, by its first word. -/
theorem endsItem_join (join : Join) (z : List Token) : Starts EndsItem (join.tokens ++ z) := by
  obtain ⟨modifiers, join⟩ := join
  cases modifiers with
  | nil => exact endsItem_word (forall_keyword (by decide)) join _
  | cons modifier modifiers => exact endsItem_word (forall_keyword (by decide)) modifier _

/-- And so does a comma. -/
theorem endsItem_separator (separator : Separator) (z : List Token) :
    Starts EndsItem (separator.tokens ++ z) := by
  cases separator with
  | comma => exact starts_cons (Or.inl rfl)
  | join join => exact endsItem_join join z

/-- A condition ends the list of tables, which the body takes up again at the join behind it. -/
theorem endsTables_condition (condition : Condition usingTables) (z : List Token) :
    Starts (fun t => t.isKeyword endsTables = true) (condition.tokens ++ z) := by
  cases condition with
  | on on parts => exact starts_cons (isKeyword_imp (forall_keyword (by decide)) on.2)
  | columns using_ names => exact starts_cons (isKeyword_imp (forall_keyword (by decide)) using_.2)

theorem endsItem_of_endsTables (h : t.isKeyword endsTables = true) : EndsItem t :=
  Or.inr (isKeyword_imp (forall_keyword (by decide)) h)

/-- `WHERE` ends the list, and without a filter what follows does. -/
theorem endsTables_filter (filter : Filter usingTables)
    (h : Starts (fun t => t.isKeyword endsTables = true) z) :
    Starts (fun t => t.isKeyword endsTables = true) (filter.tokens ++ z) := by
  cases filter with
  | none => exact h
  | parts where_ parts => exact starts_cons (isKeyword_imp (forall_keyword (by decide)) where_.2)

theorem startsQuery_of_starts (h : Starts (fun t => t.isKeyword Keyword.startsQuery = false) s) :
    startsQuery s = false := by
  cases s with
  | nil => rfl
  | cons t s => exact h t rfl

/-- A list of tables in parentheses is told from a query by its first token. -/
theorem startsQuery_item (item : Item usingTables) (z : List Token) :
    Starts (fun t => t.isKeyword Keyword.startsQuery = false) (item.tokens ++ z) := by
  cases item with
  | table name partition label hints =>
      simp only [Item.tokens, List.append_assoc]
      exact starts_tableName startsQuery_nameStart name _
  | dual dual => exact starts_cons (isKeyword_disjoint (forall_keyword (by decide)) dual.2)
  | derived query label => exact starts_cons rfl
  | nested tables => exact starts_cons rfl

/-- A list of tables is not read as a query. -/
theorem startsQuery_tables (tables : Tables usingTables) : startsQuery tables.tokens = false := by
  refine startsQuery_of_starts ?_
  cases tables with
  | last item =>
      rw [Tables.tokens, ← List.append_nil item.tokens]
      exact startsQuery_item item []
  | lastIf item condition | next item separator rest | nextIf item condition join rest =>
      simp only [Tables.tokens, List.append_assoc]
      exact startsQuery_item item _

/-- So is a group of expressions. -/
theorem startsQuery_group (group : Parts usingTables .group) : startsQuery group.tokens = false := by
  refine startsQuery_of_starts ?_
  match group with
  | .nil => exact starts_nil
  | .token token rest =>
      exact starts_cons (Bool.not_eq_true' _ ▸ (Bool.and_eq_true _ _ ▸ token.2).2)
  | .query query rest => exact starts_cons rfl
  | .group group rest => exact starts_cons rfl

theorem startsQuery_names (names : Names) : startsQuery names.tokens = false := names.first.2.2

/-! ## Leaves in a clause -/

/-- What the parts of a clause are. -/
def Slot.IsClause (slot : Slot) : Prop := slot = .clause ∨ slot = .condition

theorem isClause_tail {slot : Slot} (h : Slot.IsClause slot) : Slot.IsClause slot.tail := by
  rcases h with rfl | rfl
  · exact Or.inl rfl
  · exact Or.inr rfl

/-- What a clause allows as a token of its own is inert in it. -/
theorem isInert_of_allows {slot : Slot} (hslot : Slot.IsClause slot)
    (h : slot.allows usingTables t = true) : isInert usingTables t = true := by
  rcases hslot with rfl | rfl
  · exact h
  · exact (Bool.and_eq_true _ _ ▸ h).1

/-- The words behind `SELECT` may be followed by columns that look like more of them. -/
theorem body_modifiers {slot : Slot} (hslot : Slot.IsClause slot) (henv : env.usingTables = usingTables)
    (parts : Parts usingTables slot)
    (hz : Starts (fun t => t.isKeyword Keyword.isSelectModifier = false) z) :
    body env isTop [] (skipKeywords Keyword.isSelectModifier (parts.tokens ++ z)) =
      body env isTop [] (parts.tokens ++ z) := by
  cases parts with
  | nil =>
      show body env isTop [] (skipKeywords Keyword.isSelectModifier z) = body env isTop [] z
      rw [skipKeywords_stop hz]
  | token token rest =>
      have hinert := isInert_of_allows hslot token.2
      show body env isTop [] (skipKeywords Keyword.isSelectModifier (token.1 :: (rest.tokens ++ z))) =
        body env isTop [] (token.1 :: (rest.tokens ++ z))
      -- A column that looks like a modifier is skipped by one reader and passed by the other.
      by_cases hword : token.1.isKeyword Keyword.isSelectModifier = true
      · have hskip := skipKeywords_words [⟨token.1, hword⟩] (rest.tokens ++ z)
        rw [body_inert henv hinert, ← body_modifiers (isClause_tail hslot) henv rest hz]
        exact congrArg (body env isTop []) hskip
      · rw [skipKeywords_stop (starts_cons (Bool.not_eq_true _ ▸ hword))]
  | query query rest =>
      have hopen : Starts (fun t => t.isKeyword Keyword.isSelectModifier = false)
          ((Parts.query query rest).tokens ++ z) := starts_cons rfl
      rw [skipKeywords_stop hopen]
  | group group rest =>
      have hopen : Starts (fun t => t.isKeyword Keyword.isSelectModifier = false)
          (Parts.tokens (.group group rest) ++ z) := starts_cons rfl
      rw [skipKeywords_stop hopen]

/-! ## Spans -/

theorem expression_cons {bound : List String} (ht : t ≠ .sym '(') (z : List Token) :
    expression env bound (t :: z) = expression env bound z := by
  rw [expression_eq]
  show (if t = .sym '(' then _ else expression env bound z) = _
  rw [if_neg ht]

/-- Without parentheses there is nothing to find among expressions. -/
theorem expression_plain {bound : List String} (h : ∀ t ∈ s, t ≠ .sym '(') :
    expression env bound s = ∅ := by
  induction s with
  | nil =>
      rw [expression_eq]
      rfl
  | cons t s ih =>
      obtain ⟨ht, hs⟩ := List.forall_mem_cons.mp h
      rw [expression_cons ht]
      exact ih hs

/-- What stands in parentheses among expressions is searched. -/
theorem expression_enclose {a : List Token} (ha : Balanced a) (z : List Token) :
    expression env [] (enclose a ++ z) =
      env.search .expression [] a ++ expression env (env.search .expression [] a).bound z := by
  have hspan : enclosed (a ++ .sym ')' :: z) = (a, z) := closeSpan_balanced ha z
  rw [enclose_append, expression_eq]
  show (if Token.sym '(' = .sym '(' then _ else _) = _
  rw [if_pos rfl, hspan]
  rfl

/-- A query is read like a `SELECT` in a clause. -/
theorem afterOpening_select (w : KeywordToken (· == .SELECT)) (z : List Token) :
    afterOpening env isTop [] .select z = body env isTop [] (w.1 :: z) := by
  rw [body_select]
  exact Findings.empty_append _

/-- A query opens with its `SELECT`. -/
theorem opening_select (w : KeywordToken (· == .SELECT)) (z : List Token) :
    opening env [] (w.1 :: z) = ⟨∅, .select, z⟩ := by
  rw [opening_eq, next?_cons]
  simp only [keyword?_of_isKeyword w.2]
  rfl

/-- All queries start with the `SELECT` of their first part, a union too. -/
theorem query_starts (q : Query usingTables) :
    ∃ (w : KeywordToken (· == .SELECT)) (z : List Token), q.tokens = w.1 :: z := by
  cases q with
  | select select =>
      obtain ⟨w, _, _, _, _, _⟩ := select
      exact ⟨w, _, rfl⟩
  | union select union all rest =>
      obtain ⟨w, _, _, _, _, _⟩ := select
      exact ⟨w, _, rfl⟩

/-- Inside of parentheses a query is read as the rest of a statement from its `SELECT` on. -/
theorem span_query (place : Place) (q : Query usingTables) :
    span env place [] q.tokens = body env false [] q.tokens := by
  obtain ⟨w, z, hq⟩ := query_starts q
  have hstart : startsQuery (w.1 :: z) = true :=
    isKeyword_imp (q := Keyword.startsQuery) (forall_keyword (by decide)) w.2
  unfold span query
  rw [hq, if_pos hstart, opening_select, ← afterOpening_select]
  exact Findings.empty_append _

theorem span_tables (tables : Tables usingTables) :
    span env .tableList [] tables.tokens = listed env false tables.tokens := by
  unfold span
  rw [if_neg (by rw [startsQuery_tables]; exact Bool.false_ne_true)]
  rfl

theorem span_group (group : Parts usingTables .group) :
    span env .expression [] group.tokens = expression env [] group.tokens := by
  unfold span
  rw [if_neg (by rw [startsQuery_group]; exact Bool.false_ne_true)]

/-- Names in parentheses are no tables. -/
theorem span_names (bound : List String) (names : Names) :
    span env .expression bound names.tokens = ∅ := by
  unfold span
  rw [if_neg (by rw [startsQuery_names]; exact Bool.false_ne_true)]
  refine expression_plain ?_
  intro t ht
  rw [Names.tokens, List.mem_cons, List.mem_flatMap] at ht
  rcases ht with rfl | ⟨name, _, ht⟩
  · exact ne_sym_of_isIdentifier names.first.2.1 '('
  · rw [List.mem_cons, List.mem_singleton] at ht
    rcases ht with rfl | rfl
    · decide
    · exact ne_sym_of_isIdentifier name.2.1 '('

/-- Neither are they at any depth. -/
theorem search_names (lower usingTables : Bool) (depth : Nat) (bound : List String) (names : Names) :
    (Env.nested lower usingTables depth).search .expression bound names.tokens = ∅ := by
  cases depth with
  | zero => rfl
  | succ depth => exact span_names bound names

/-- A span one level deeper is searched with one level less to go. -/
theorem search_of_span {lower : Bool} {nesting depth : Nat} {place : Place} {f : Findings}
    (hd : nesting + 1 ≤ depth)
    (h : ∀ d, nesting ≤ d → span (Env.nested lower usingTables d) place [] s = f) :
    (Env.nested lower usingTables depth).search place [] s = f := by
  cases depth with
  | zero => exact absurd hd (Nat.not_succ_le_zero nesting)
  | succ depth => exact h depth (Nat.le_of_succ_le_succ hd)

/-- A query in parentheses takes one level, and is read with the others that are left. -/
theorem search_query {lower : Bool} {q : Query usingTables} {depth : Nat} {f : Findings}
    (place : Place) (hd : q.nesting + 1 ≤ depth)
    (h : ∀ d, q.nesting ≤ d → body (Env.nested lower usingTables d) false [] q.tokens = f) :
    (Env.nested lower usingTables depth).search place [] q.tokens = f :=
  search_of_span hd fun d hd' => (span_query place q).trans (h d hd')

/-- So does a group of expressions. -/
theorem search_group {lower : Bool} {group : Parts usingTables .group} {depth : Nat} {f : Findings}
    (hd : group.nesting + 1 ≤ depth)
    (h : ∀ d, group.nesting ≤ d → expression (Env.nested lower usingTables d) [] group.tokens = f) :
    (Env.nested lower usingTables depth).search .expression [] group.tokens = f :=
  search_of_span hd fun d hd' => (span_group group).trans (h d hd')

/-! ## Items -/

/-- A derived table is followed by its label, by names for its columns and by hints. -/
theorem tableItem?_enclose {a : List Token} (ha : Balanced a) (z : List Token) :
    tableItem? env [] (enclose a ++ z) =
      some (env.search .tableList [] a, skipIndexHints (skipSpan (skipAlias z))) := by
  have hspan : enclosed (a ++ .sym ')' :: z) = (a, z) := closeSpan_balanced ha z
  rw [enclose_append]
  show some (env.search .tableList [] (enclosed (a ++ .sym ')' :: z)).1,
    skipIndexHints (skipSpan (skipAlias (enclosed (a ++ .sym ')' :: z)).2))) = _
  rw [hspan]

/-- What may stand behind a parenthesis of a list is passed. -/
theorem skip_derived (label : Option (Alias × Option Names)) (hz : Starts EndsItem z) :
    skipIndexHints (skipSpan (skipAlias (derivedTokens label ++ z))) = z := by
  have hlacks : Starts LacksAlias z := starts_imp (fun _ => lacksAlias_of_endsItem) hz
  have hopen : Starts (· ≠ .sym '(') z :=
    starts_imp (fun _ => ne_sym_of_lacksAlias (by decide)) hlacks
  cases label with
  | none =>
      show skipIndexHints (skipSpan (skipAlias z)) = z
      rw [skipAlias_stop hlacks, skipSpan_stop hopen, skipIndexHints_stop hz]
  | some label =>
      obtain ⟨label, columns⟩ := label
      show skipIndexHints (skipSpan (skipAlias (label.tokens ++ _ ++ z))) = z
      rw [List.append_assoc, skipAlias_alias]
      cases columns with
      | none =>
          show skipIndexHints (skipSpan z) = z
          rw [skipSpan_stop hopen, skipIndexHints_stop hz]
      | some names =>
          show skipIndexHints (skipSpan (enclose names.tokens ++ z)) = z
          rw [skipSpan_enclose (balanced_names names), skipIndexHints_stop hz]

theorem record_tableName (env : Env (List Token)) (name : TableName) :
    env.record [] name.qualified? = .ofReferences [name.reference env.lower] := by
  cases name <;> rfl

/-- The name of a table is read to its last part, for no dot follows. -/
theorem tableName?_tableName (name : TableName) (hz : Starts (· ≠ .sym '.') z) :
    tableName? env [] (name.tokens ++ z) = some (.ofReferences [name.reference env.lower], z) := by
  rw [tableName?, qualifiedName?_tableName name hz, Option.map_some]
  simp only
  rw [record_tableName]

/-- A table with all that may follow it: partitions, a label and hints, none of which is left. -/
theorem tableItem?_table (name : TableName)
    (partition : Option (KeywordToken (· == .PARTITION) × Names)) (label : Option Alias)
    (hints : List Hint) (hz : Starts EndsItem z) :
    tableItem? env [] ((Item.table name partition label hints : Item usingTables).tokens ++ z) =
      some (.ofReferences [name.reference env.lower], z) := by
  -- From the back: what stands behind each part shows no word that would belong to the part.
  have hhints : Starts LacksAlias (hints.flatMap Hint.tokens ++ z) := starts_hints hints hz
  have hlabel : Starts (fun t => t ≠ .sym '.' ∧ t.isKeyword (· == .PARTITION) = false)
      (label.elim [] Alias.tokens ++ (hints.flatMap Hint.tokens ++ z)) := starts_label label hhints
  have hpartition : Starts (· ≠ .sym '.') (partitionTokens partition ++
      (label.elim [] Alias.tokens ++ (hints.flatMap Hint.tokens ++ z))) := by
    refine starts_append ?_ (starts_imp (fun _ ht => ht.1) hlabel)
    cases partition with
    | none => exact starts_nil
    | some part => exact starts_cons (ne_sym_of_isKeyword part.1.2 '.')
  have hopen : acceptSym? '(' (name.tokens ++ (partitionTokens partition ++
      (label.elim [] Alias.tokens ++ (hints.flatMap Hint.tokens ++ z)))) = none :=
    acceptSym?_stop (starts_tableName (fun start =>
      ne_sym_of_isIdentifier (isIdentifier_of_startsName start.2.1) '(') name _)
  have hdual : acceptKeyword? (· == .DUAL) (name.tokens ++ (partitionTokens partition ++
      (label.elim [] Alias.tokens ++ (hints.flatMap Hint.tokens ++ z)))) = none :=
    acceptKeyword?_stop (starts_tableName (fun start => dual_nameStart start) name _)
  simp only [Item.tokens, List.append_assoc]
  rw [tableItem?, hopen]
  simp only
  rw [hdual]
  simp only
  rw [tableName?_tableName name hpartition]
  simp only
  rw [skipPartition_partition partition (starts_imp (fun _ ht => ht.2) hlabel),
    skipAlias_label label hhints, skipIndexHints_hints hints hz]

/-- `DUAL` is an item without a table. -/
theorem tableItem?_dual (dual : KeywordToken (· == .DUAL)) (hz : Starts EndsItem z) :
    tableItem? env [] (dual.1 :: z) = some (∅, z) := by
  have hopen : acceptSym? '(' (dual.1 :: z) = none :=
    acceptSym?_stop (starts_cons (ne_sym_of_isKeyword dual.2 '('))
  have halias : skipAlias z = z := skipAlias_stop (starts_imp (fun _ => lacksAlias_of_endsItem) hz)
  rw [tableItem?, hopen]
  simp only
  rw [acceptKeyword?_cons dual.2]
  simp only
  rw [halias, skipIndexHints_stop hz]

/-! ## Lists -/

/-- The last item of a list. -/
theorem listed_last {references : List TableReference}
    (h : tableItem? env [] s = some (.ofReferences references, z)) (hz : nextTable? z = none) :
    listed env isTop s = .ofReferences references ++ body env isTop [] z := by
  have hlist : tableList env [] s = (.ofReferences references, z) := by
    rw [tableList_eq, h]
    simp only
    rw [hz]
  rw [listed, hlist]
  rfl

/-- An item behind which the list goes on. -/
theorem listed_next {references : List TableReference} {rest : List Token}
    (h : tableItem? env [] s = some (.ofReferences references, rest))
    (hz : nextTable? rest = some z) :
    listed env isTop s = .ofReferences references ++ listed env isTop z := by
  have hlist : tableList env [] s =
      (.ofReferences references ++ (tableList env [] z).1, (tableList env [] z).2) := by
    rw [tableList_eq, h]
    simp only
    rw [hz]
    rfl
  rw [listed, hlist, listed]
  exact Findings.append_assoc _ _ _

/-! ## Trees -/

mutual

/-- The tables of a query are found in the clause that it fills, in front of whatever ends a list of
    tables. -/
theorem body_query_append (lower : Bool) (q : Query usingTables) {depth : Nat} (hd : q.nesting ≤ depth)
    (isTop : Bool) {z : List Token} (hz : Starts (fun t => t.isKeyword endsTables = true) z) :
    body (Env.nested lower usingTables depth) isTop [] (q.tokens ++ z) =
      .ofReferences (q.tables lower) ++ body (Env.nested lower usingTables depth) isTop [] z := by
  cases q with
  | select select => exact body_selection lower select hd isTop hz
  | union select union all rest =>
      obtain ⟨hselect, hrest⟩ := Nat.max_le.mp hd
      have hend : Starts (fun t => t.isKeyword endsTables = true)
          (union.1 :: (words all.toList ++ (rest.tokens ++ z))) :=
        starts_cons (isKeyword_imp (forall_keyword (by decide)) union.2)
      simp only [Query.tokens, List.append_assoc, List.cons_append]
      rw [body_selection lower select hselect isTop hend, body_word (forall_keyword (by decide)),
        body_words (forall_keyword (by decide)), body_query_append lower rest hrest isTop hz,
        ← Findings.append_assoc]
      rfl

/-- The tables of one `SELECT`: those in its columns, those that it lists and those in its filter. -/
theorem body_selection (lower : Bool) (s : Select usingTables) {depth : Nat} (hd : s.nesting ≤ depth)
    (isTop : Bool) {z : List Token} (hz : Starts (fun t => t.isKeyword endsTables = true) z) :
    body (Env.nested lower usingTables depth) isTop [] (s.tokens ++ z) =
      .ofReferences (s.tables lower) ++ body (Env.nested lower usingTables depth) isTop [] z := by
  cases s with
  | mk select modifiers columns from_ tables filter =>
      obtain ⟨hcolumns, hrest⟩ := Nat.max_le.mp hd
      obtain ⟨htables, hfilter⟩ := Nat.max_le.mp hrest
      have hfrom : Starts (fun t => t.isKeyword Keyword.isSelectModifier = false)
          (from_.1 :: (tables.tokens ++ (filter.tokens ++ z))) :=
        starts_cons (isKeyword_disjoint (forall_keyword (by decide)) from_.2)
      have hend := endsTables_filter filter hz
      simp only [Select.tokens, List.cons_append, List.append_assoc]
      -- Modifiers first, then one rewriting step for each part of the tree.
      rw [body_select, skipKeywords_words,
        body_modifiers (Or.inl rfl) (usingTables_nested _ _ _) columns hfrom,
        body_parts lower (Or.inl rfl) columns hcolumns, body_tables (forall_keyword (by decide)),
        listed_tables lower tables htables isTop hend, body_filter lower filter hfilter,
        ← Findings.append_assoc, ← Findings.append_assoc, ofReferences_append, ofReferences_append]
      rfl

/-- The tables of a filter are those of the queries in it. -/
theorem body_filter (lower : Bool) (f : Filter usingTables) {depth : Nat} (hd : f.nesting ≤ depth)
    (isTop : Bool) (z : List Token) :
    body (Env.nested lower usingTables depth) isTop [] (f.tokens ++ z) =
      .ofReferences (f.tables lower) ++ body (Env.nested lower usingTables depth) isTop [] z := by
  cases f with
  | none => rfl
  | parts where_ parts =>
      show body _ isTop [] (where_.1 :: (parts.tokens ++ z)) = _
      rw [body_word (forall_keyword (by decide))]
      exact body_parts lower (Or.inl rfl) parts hd isTop z

/-- A list with its conditions. Behind a condition it is the body that comes to the next join and starts the
    list anew. -/
theorem listed_tables (lower : Bool) (ts : Tables usingTables) {depth : Nat}
    (hd : ts.nesting ≤ depth) (isTop : Bool) {z : List Token}
    (hz : Starts (fun t => t.isKeyword endsTables = true) z) :
    listed (Env.nested lower usingTables depth) isTop (ts.tokens ++ z) =
      .ofReferences (ts.tables lower) ++ body (Env.nested lower usingTables depth) isTop [] z := by
  cases ts with
  | last item =>
      have hitem := tableItem?_item lower item hd (starts_imp (fun _ => endsItem_of_endsTables) hz)
      exact listed_last hitem (nextTable?_stop hz)
  | lastIf item condition =>
      -- The condition ends the list, and is read as a part of the rest of the statement.
      obtain ⟨hitem, hcondition⟩ := Nat.max_le.mp hd
      have hlast := tableItem?_item lower item hitem (endsItem_condition condition z)
      have hstop := nextTable?_stop (endsTables_condition condition z)
      rw [Tables.tokens, List.append_assoc, listed_last hlast hstop,
        body_condition lower condition hcondition, ← Findings.append_assoc]
      rfl
  | next item separator rest =>
      obtain ⟨hitem, hrest⟩ := Nat.max_le.mp hd
      have hnext := tableItem?_item lower item hitem (endsItem_separator separator (rest.tokens ++ z))
      rw [Tables.tokens, List.append_assoc, List.append_assoc,
        listed_next hnext (nextTable?_separator separator _), listed_tables lower rest hrest isTop hz,
        ← Findings.append_assoc]
      rfl
  | nextIf item condition join rest =>
      -- The condition ends the list; the `JOIN` behind it starts another one.
      obtain ⟨hitem, hothers⟩ := Nat.max_le.mp hd
      obtain ⟨hcondition, hrest⟩ := Nat.max_le.mp hothers
      have hlast := tableItem?_item lower item hitem
        (endsItem_condition condition (join.tokens ++ (rest.tokens ++ z)))
      have hstop := nextTable?_stop (endsTables_condition condition (join.tokens ++ (rest.tokens ++ z)))
      rw [Tables.tokens, List.append_assoc, List.append_assoc, List.append_assoc,
        listed_last hlast hstop, body_condition lower condition hcondition, body_join,
        listed_tables lower rest hrest isTop hz, ← Findings.append_assoc, ← Findings.append_assoc]
      rfl

/-- A condition holds tables only in its parentheses. -/
theorem body_condition (lower : Bool) (c : Condition usingTables) {depth : Nat}
    (hd : c.nesting ≤ depth) (isTop : Bool) (z : List Token) :
    body (Env.nested lower usingTables depth) isTop [] (c.tokens ++ z) =
      .ofReferences (c.tables lower) ++ body (Env.nested lower usingTables depth) isTop [] z := by
  cases c with
  | on on parts =>
      show body _ isTop [] (on.1 :: (parts.tokens ++ z)) = _
      rw [body_word (forall_keyword (by decide))]
      exact body_parts lower (Or.inr rfl) parts hd isTop z
  | columns using_ names =>
      show body _ isTop [] (using_.1 :: (enclose names.tokens ++ z)) = _
      rw [body_using, body_enclose (balanced_names names), search_names]
      rfl

/-- One item with the tables in it, and nothing of it is left. -/
theorem tableItem?_item (lower : Bool) (i : Item usingTables) {depth : Nat} (hd : i.nesting ≤ depth)
    {z : List Token} (hz : Starts EndsItem z) :
    tableItem? (Env.nested lower usingTables depth) [] (i.tokens ++ z) =
      some (.ofReferences (i.tables lower), z) := by
  cases i with
  | table name partition label hints =>
      rw [tableItem?_table name partition label hints hz, lower_nested]
      rfl
  | dual dual => exact tableItem?_dual dual hz
  | derived query label =>
      have hsearch : (Env.nested lower usingTables depth).search .tableList [] query.tokens =
          .ofReferences (query.tables lower) :=
        search_query _ hd fun d hd' => body_of_append (body_query_append lower query hd' false starts_nil)
      rw [Item.tokens, List.append_assoc, tableItem?_enclose (balanced_query query), hsearch,
        skip_derived label hz]
      rfl
  | nested tables =>
      have hsearch : (Env.nested lower usingTables depth).search .tableList [] tables.tokens =
          .ofReferences (tables.tables lower) := by
        refine search_of_span hd fun d hd' => ?_
        -- A list that fills its parenthesis leaves nothing for the rest of a statement.
        have hlisted := listed_tables lower tables hd' false (z := []) starts_nil
        rw [List.append_nil, body_nil, Findings.append_empty] at hlisted
        rw [span_tables, hlisted]
      have hskip : skipIndexHints (skipSpan (skipAlias z)) = z := skip_derived Option.none hz
      rw [Item.tokens, tableItem?_enclose (balanced_tables tables), hsearch, hskip]
      rfl

/-- Tokens, queries and groups in a clause, one after another. -/
theorem body_parts (lower : Bool) {slot : Slot} (hslot : Slot.IsClause slot)
    (ps : Parts usingTables slot) {depth : Nat} (hd : ps.nesting ≤ depth) (isTop : Bool)
    (z : List Token) :
    body (Env.nested lower usingTables depth) isTop [] (ps.tokens ++ z) =
      .ofReferences (ps.tables lower) ++ body (Env.nested lower usingTables depth) isTop [] z := by
  -- On the tree: a token is passed, and a parenthesis is searched one level further down.
  match ps with
  | .nil => rfl
  | .token token rest =>
      show body _ isTop [] (token.1 :: (rest.tokens ++ z)) = _
      rw [body_inert (usingTables_nested _ _ _) (isInert_of_allows hslot token.2)]
      exact body_parts lower (isClause_tail hslot) rest hd isTop z
  | .query query rest =>
      obtain ⟨hquery, hrest⟩ := Nat.max_le.mp hd
      have hsearch : (Env.nested lower usingTables depth).search .expression [] query.tokens =
          .ofReferences (query.tables lower) :=
        search_query _ hquery fun d hd' =>
          body_of_append (body_query_append lower query hd' false starts_nil)
      rw [Parts.tokens, List.append_assoc, body_enclose (balanced_query query), hsearch]
      show _ ++ body (Env.nested lower usingTables depth) isTop [] (rest.tokens ++ z) = _
      rw [body_parts lower (isClause_tail hslot) rest hrest, ← Findings.append_assoc]
      rfl
  | .group group rest =>
      obtain ⟨hgroup, hrest⟩ := Nat.max_le.mp hd
      have hsearch : (Env.nested lower usingTables depth).search .expression [] group.tokens =
          .ofReferences (group.tables lower) :=
        search_group hgroup fun d hd' => expression_parts lower group hd'
      rw [Parts.tokens, List.append_assoc, body_enclose (balanced_parts group), hsearch]
      show _ ++ body (Env.nested lower usingTables depth) isTop [] (rest.tokens ++ z) = _
      rw [body_parts lower (isClause_tail hslot) rest hrest, ← Findings.append_assoc]
      rfl

/-- The same among expressions, where no clause begins. -/
theorem expression_parts (lower : Bool) {slot : Slot} (ps : Parts usingTables slot) {depth : Nat}
    (hd : ps.nesting ≤ depth) :
    expression (Env.nested lower usingTables depth) [] ps.tokens =
      .ofReferences (ps.tables lower) := by
  -- On the tree, as for a clause.
  match ps with
  | .nil => exact expression_plain (fun _ h => nomatch h)
  | .token token rest =>
      have ht := (ne_sym_of_isPlain (isPlain_of_allows token.2)).1
      rw [Parts.tokens, expression_cons ht]
      exact expression_parts lower rest hd
  | .query query rest =>
      obtain ⟨hquery, hrest⟩ := Nat.max_le.mp hd
      have hsearch : (Env.nested lower usingTables depth).search .expression [] query.tokens =
          .ofReferences (query.tables lower) :=
        search_query _ hquery fun d hd' =>
          body_of_append (body_query_append lower query hd' false starts_nil)
      rw [Parts.tokens, expression_enclose (balanced_query query), hsearch]
      show _ ++ expression (Env.nested lower usingTables depth) [] rest.tokens = _
      rw [expression_parts lower rest hrest]
      rfl
  | .group group rest =>
      obtain ⟨hgroup, hrest⟩ := Nat.max_le.mp hd
      have hsearch : (Env.nested lower usingTables depth).search .expression [] group.tokens =
          .ofReferences (group.tables lower) :=
        search_group hgroup fun d hd' => expression_parts lower group hd'
      rw [Parts.tokens, expression_enclose (balanced_parts group), hsearch]
      show _ ++ expression (Env.nested lower usingTables depth) [] rest.tokens = _
      rw [expression_parts lower rest hrest]
      rfl

end

theorem body_query (lower : Bool) (q : Query usingTables) {depth : Nat} (hd : q.nesting ≤ depth)
    (isTop : Bool) :
    body (Env.nested lower usingTables depth) isTop [] q.tokens = .ofReferences (q.tables lower) :=
  body_of_append (body_query_append lower q hd isTop starts_nil)

/-! ## Whole statements -/

/-- **No table of a query is missed.** A text whose tokens are those of a query, nested no deeper than the
    limit, is a `SELECT` of exactly the tables of the query, in the order of the text. -/
theorem parse_query {text : Bytes} {q : Query false} {options : Options} (ht : text.tokens = q.tokens)
    (hd : q.nesting ≤ options.maxDepth) :
    parse options text =
      { type := .select, references := q.tables options.lowerCaseNames } := by
  obtain ⟨w, z, hq⟩ := query_starts q
  have hopening : opening (.nested options.lowerCaseNames false options.maxDepth) [] (w.1 :: z) =
      ⟨∅, .select, z⟩ := opening_select w z
  have hbody := body_query options.lowerCaseNames q hd true
  have hextract : extract options .unknown q.tokens =
      (.select, q.tables options.lowerCaseNames) := by
    rw [hq, ← afterOpening_select w z] at hbody
    have hunknown : (StatementType.unknown == .delete) = false := rfl
    have hselect : (StatementType.select == .delete) = false := rfl
    unfold extract
    simp only [hunknown, hq, hopening, StatementType.orElse, hselect, Findings.bound_empty, hbody,
      Findings.empty_append]
    rfl
  rw [parse, Summary.read, extract_tokens, ht, hextract]
  rfl

/-- `SELECT a FROM db.t AS x, u JOIN (SELECT b FROM v) y ON (x.a = y.b)`, as a tree. -/
def joinedQuery : Query false :=
  let word (text : String) : Token := .word (ascii text)
  let name (text : String) (h : startsName (word text) = true ∧
      (word text).isKeyword (fun k => k == .DUAL || k == .WITH) = false) : TableName :=
    .plain ⟨word text, h⟩
  let column (text : String) (h : isInert false (word text) = true) : Parts false .clause :=
    .token ⟨word text, h⟩ .nil
  let inner : Query false := .select (.mk ⟨word "SELECT", by decide⟩ [] (column "b" (by decide))
    ⟨word "FROM", by decide⟩ (.last (.table (name "v" (by decide)) none none [])) .none)
  let condition : Parts false .group := .token ⟨word "x", by decide⟩ (.token ⟨.sym '.', by decide⟩
    (.token ⟨word "a", by decide⟩ (.token ⟨.sym '=', by decide⟩ (.token ⟨word "y", by decide⟩
    (.token ⟨.sym '.', by decide⟩ (.token ⟨word "b", by decide⟩ .nil))))))
  .select (.mk ⟨word "SELECT", by decide⟩ [] (column "a" (by decide)) ⟨word "FROM", by decide⟩
    (.next
      (.table (.qualified ⟨word "db", by decide⟩ ⟨word "t", by decide⟩) none
        (some (.behindAs ⟨word "AS", by decide⟩ ⟨word "x", by decide⟩)) [])
      .comma
      (.next (.table (name "u" (by decide)) none none []) (.join ⟨[], ⟨word "JOIN", by decide⟩⟩)
        (.lastIf (.derived inner (some (.plain ⟨word "y", by decide⟩, none)))
          (.on ⟨word "ON", by decide⟩ (.group condition .nil)))))
    .none)

theorem parse_query_joined :
    let text := ascii "SELECT a FROM db.t AS x, u JOIN (SELECT b FROM v) y ON (x.a = y.b)"
    text.tokens = joinedQuery.tokens ∧ joinedQuery.nesting ≤ 1 ∧
      parse { maxDepth := 1 } text =
        { type := .select, references := [⟨some "db", "t"⟩, ⟨none, "u"⟩, ⟨none, "v"⟩] } := by
  have ht : (ascii "SELECT a FROM db.t AS x, u JOIN (SELECT b FROM v) y ON (x.a = y.b)").tokens =
      joinedQuery.tokens := by decide +kernel
  have hd : joinedQuery.nesting ≤ 1 := by decide
  have hparse := @parse_query _ joinedQuery { maxDepth := 1 } ht hd
  refine ⟨ht, hd, hparse.trans ?_⟩
  decide +kernel

end SqlTables
