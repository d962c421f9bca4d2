import SqlTables.Proofs.Selection
import SqlTables.Proofs.Token.Closed

/-!
# `SqlTables.Proofs.Parenthesized` — a query in parentheses

Parentheses around a query leave its references as they are, one level of nesting further down, if the
query starts with `SELECT` or `WITH`. A query that starts with a parenthesis itself is not taken for one
inside another parenthesis: there only what its own parentheses hold is searched, so that a plain `SELECT`
behind a `UNION` is lost.

## Contents
- **`parenthesized`**: a query in parentheses, as it is written.
- **`body_isTop`**, **`query_eq_statement`**: a span that is a query.
- **`outside`** and **`body_eq_expression`**: a span of which only the parentheses count.
- **`parse_parenthesized`**: whole texts.
-/

namespace SqlTables

open TokenSource Grammar

/-! ## Texts in parentheses -/

/-- A text in parentheses, the closing one on a new line. -/
def parenthesized (text : Bytes) : Bytes := '('.toUInt8 :: onNewLine text (ascii ")")

/-- Parentheses around a text that leaves nothing open are tokens of their own. -/
theorem tokens_parenthesized {text : Bytes} (hc : text.closes = true) :
    (parenthesized text).tokens = enclose text.tokens := by
  have hclose : (ascii ")").tokens = [.sym ')'] := by decide +kernel
  rw [parenthesized, tokens_punct rfl (by decide) rfl (by decide), tokens_append_of_closes hc, hclose]
  rfl

variable {s rest : List Token} {t : Token}

/-! ## Spans that are queries -/

variable {env : Env (List Token)} {bound : List String}

/-- Without a `;` the level makes no difference. -/
theorem body_isTop (henv : env.Faithful) (h : .sym ';' ∉ s) :
    body env false bound s = body env true bound s := by
  generalize hn : s.length = n
  induction n using Nat.strongRecOn generalizing s bound with
  | ind n ih =>
      cases s with
      | nil =>
          rw [body_eq, body_end]
          rfl
      | cons t rest =>
          have ht : t ≠ .sym ';' := fun ht => h (ht ▸ List.mem_cons_self)
          have hsuffix : (clause env bound t rest).2 <:+ t :: rest :=
            (suffix_of_reads (clause_reads henv bound t rest)).trans (List.suffix_cons t rest)
          have hlt : (clause env bound t rest).2.length < n :=
            hn ▸ Nat.lt_succ_of_le (size_clause_le env bound t rest)
          rw [body_top ht, body_eq, next?_cons]
          simp only
          rw [if_neg fun hh => ht hh.2, ih _ hlt (fun hmem => h (hsuffix.subset hmem)) rfl]

/-- Inside parentheses a query contributes what it contributes on its own. -/
theorem query_eq_statement (m : Nat) (lower : Bool) (h : .sym ';' ∉ s) (hc : command s = .select) :
    query (.nested lower false m) [] s = statement ⟨m, lower⟩ .unknown [] s := by
  have henv : (Env.nested lower false m : Env (List Token)).Faithful := faithful_nested _ _ _
  have htype : (opening (.nested lower false m) [] s).type = .select := by
    rw [type_opening_eq_command, hc]
  have hsuffix : skipKeywords Keyword.isSelectModifier (opening (.nested lower false m) [] s).rest <:+ s :=
    (skipKeywords_suffix _ _).trans (suffix_of_reads (opening_reads henv [] s))
  have hbody : ∀ b, body (.nested lower false m) false b
      (skipKeywords Keyword.isSelectModifier (opening (.nested lower false m) [] s).rest) =
        body (.nested lower false m) true b
          (skipKeywords Keyword.isSelectModifier (opening (.nested lower false m) [] s).rest) :=
    fun b => body_isTop henv fun hmem => h (hsuffix.subset hmem)
  unfold query statement
  show _ ++ afterOpening _ false _ (opening (.nested lower false m) [] s).type _ =
    _ ++ afterOpening (.outer _ (StatementType.orElse _ (opening (.nested lower false m) [] s).type))
      true _ (opening (.nested lower false m) [] s).type _
  rw [htype]
  exact congrArg (fun more => (opening _ [] s).found ++ (∅ ++ more)) (hbody _)

/-! ## Spans of which only the parentheses count -/

/-- The tokens outside all parentheses. -/
def outside (s : List Token) : List Token :=
  match s with
  | [] => []
  | t :: rest => if t = .sym '(' then outside (enclosed rest).2 else t :: outside rest
termination_by s.length
decreasing_by
  · exact Nat.lt_succ_of_le (size_afterSpan_le rest)
  · exact Nat.lt_succ_self _

theorem outside_open (rest : List Token) : outside (.sym '(' :: rest) = outside (enclosed rest).2 := by
  rw [outside, if_pos rfl]

theorem outside_cons (ht : t ≠ .sym '(') (rest : List Token) :
    outside (t :: rest) = t :: outside rest := by
  rw [outside, if_neg ht]

theorem expression_nil (env : Env (List Token)) (bound : List String) :
    expression env bound ([] : List Token) = ∅ := by
  rw [expression_eq]
  rfl

/-- A parenthesis in an expression is searched, and the names that it binds are bound behind it. -/
theorem expression_open (env : Env (List Token)) (bound : List String) (rest : List Token) :
    expression env bound (.sym '(' :: rest) =
      env.search .expression bound (enclosed rest).1 ++
        expression env (bound ++ (env.search .expression bound (enclosed rest).1).bound)
          (enclosed rest).2 := by
  rw [expression_eq, next?_cons]
  exact if_pos rfl

/-- Words that are skipped are outside all parentheses. -/
theorem skipKeywords_outside (p : Keyword → Bool) (env : Env (List Token)) (bound : List String)
    (s : List Token) :
    outside (skipKeywords p s) ⊆ outside s ∧
      expression env bound (skipKeywords p s) = expression env bound s := by
  unfold skipKeywords
  fun_induction skipWhile (·.isKeyword p) s with
  | case2 s h => exact ⟨List.Subset.refl _, rfl⟩
  | case1 s rest h ih =>
      obtain ⟨t, ht, rfl⟩ := accept?_eq_some_iff.mp h
      have hopen : t ≠ .sym '(' := ne_sym_of_isKeyword ht '('
      rw [outside_cons hopen, expression_cons hopen]
      exact ⟨List.subset_cons_of_subset t ih.1, ih.2⟩

/-- Where no list of tables starts outside parentheses, only what they hold counts anyway. -/
theorem body_eq_expression (hu : env.usingTables = false) (hsemi : .sym ';' ∉ s)
    (h : ∀ t ∈ outside s, ¬ StartsTables t) :
    body env true bound s = expression env bound s := by
  generalize hn : s.length = n
  -- On the number of tokens, since a whole span is passed at once.
  induction n using Nat.strongRecOn generalizing s bound with
  | ind n ih =>
      cases s with
      | nil => rw [body_end, expression_nil]
      | cons t rest =>
          obtain ⟨ht, hrest⟩ := not_or.mp (mt List.mem_cons.mpr hsemi)
          have hlt : rest.length < n := hn ▸ Nat.lt_succ_self _
          by_cases ho : t = .sym '('
          · subst ho
            have hsuffix := afterSpan_suffix rest
            rw [outside_open] at h
            rw [body_top (by decide), clause_open, expression_open,
              ih _ (Nat.lt_of_le_of_lt hsuffix.length_le hlt) (fun hm => hrest (hsuffix.subset hm))
                h rfl]
          · rw [outside_cons ho] at h
            obtain ⟨hfirst, htail⟩ := List.forall_mem_cons.mp h
            rw [expression_cons ho]
            rcases clause_outside hu ho hfirst bound rest with hc | hc
            · rw [body_passes (next?_cons t rest) (Ne.symm ht) hc]
              exact ih _ hlt hrest htail rfl
            · -- The modifiers behind `SELECT` are passed together; none of them is a parenthesis.
              obtain ⟨hsub, hsame⟩ := skipKeywords_outside Keyword.isSelectModifier env bound rest
              have hsuffix := skipKeywords_suffix Keyword.isSelectModifier rest
              rw [body_passes (next?_cons t rest) (Ne.symm ht) hc, ← hsame]
              exact ih _ (Nat.lt_of_le_of_lt hsuffix.length_le hlt)
                (fun hm => hrest (hsuffix.subset hm)) (fun t ht => htail t (hsub ht)) rfl

/-! ## Queries in parentheses -/

/-- A parenthesis in front of a query is passed. -/
theorem startsParenthesizedQuery_open (rest : List Token) :
    startsParenthesizedQuery (Token.sym '(' :: rest) = startsParenthesizedQuery rest := by
  have haccept : accept? (· == .sym '(') (Token.sym '(' :: rest) = some rest :=
    accept?_cons (beq_self_eq_true _) rest
  rw [startsParenthesizedQuery, skipWhile_eq, haccept]
  rfl

/-- `SELECT` or `WITH` starts a query. -/
theorem startsParenthesizedQuery_keyword (h : t.isKeyword Keyword.startsQuery = true)
    (rest : List Token) : startsParenthesizedQuery (t :: rest) = true := by
  have hopen : Starts (fun t => (t == Token.sym '(') = false) (t :: rest) :=
    starts_cons (beq_eq_false_iff_ne.mpr (ne_sym_of_isKeyword h '('))
  rw [startsParenthesizedQuery, skipWhile_eq, accept?_stop hopen]
  exact h

/-- A `)` behind a query does not hide it. -/
theorem startsParenthesizedQuery_close (h : startsParenthesizedQuery s = true) :
    startsParenthesizedQuery (s ++ [.sym ')']) = true := by
  have hstop : Starts (fun t => (t == Token.sym '(') = false) [Token.sym ')'] := starts_cons rfl
  rw [startsParenthesizedQuery] at h
  rw [startsParenthesizedQuery, skipWhile_before hstop]
  cases hrest : skipWhile (· == Token.sym '(') s with
  | nil =>
      rw [hrest] at h
      cases h
  | cons t rest =>
      rw [hrest] at h
      exact h

/-- However a `SELECT` starts, it is found behind its parentheses. -/
theorem startsParenthesizedQuery_of_command (hc : command s = .select) :
    startsParenthesizedQuery s = true := by
  by_cases hw : Starts (fun t => t.keyword? ≠ some .WITH) s
  · cases bareQuery_of_command hw hc with
    | select hk =>
        refine startsParenthesizedQuery_keyword ?_ _
        rw [Token.isKeyword_of_keyword? hk]
        rfl
    | parenthesized hq => exact hq
  · rw [Starts, not_forall₂] at hw
    obtain ⟨t, ht, hk⟩ := hw
    obtain ⟨rest, rfl⟩ := List.head?_eq_some_iff.mp ht
    refine startsParenthesizedQuery_keyword ?_ _
    rw [Token.isKeyword_of_keyword? (not_not.mp hk)]
    rfl

/-- A query in parentheses is a query without a `WITH` clause in front of it. -/
theorem bareQuery_enclose (hc : command s = .select) : BareQuery (enclose s) := by
  refine .parenthesized ?_
  rw [startsParenthesizedQuery_open]
  exact startsParenthesizedQuery_close (startsParenthesizedQuery_of_command hc)

/-- Only a query that starts with a parenthesis is not taken for one in another parenthesis. -/
theorem startsQuery_iff_of_command (hc : command s = .select) :
    startsQuery s = true ↔ s.head? ≠ some (.sym '(') := by
  constructor
  · intro hq hhead
    obtain ⟨rest, rfl⟩ := List.head?_eq_some_iff.mp hhead
    cases hq
  · intro hhead
    have hstop : Starts (fun t => (t == Token.sym '(') = false) s := by
      intro t ht
      rw [beq_eq_false_iff_ne]
      rintro rfl
      exact hhead ht
    have hquery := startsParenthesizedQuery_of_command hc
    rw [startsParenthesizedQuery, skipWhile_eq, accept?_stop hstop] at hquery
    exact hquery

/-- A query in parentheses is searched as a span, one level further down. -/
theorem statement_enclose (m : Nat) (lower : Bool) (hp : closers? s = some 0)
    (hc : command s = .select) :
    statement ⟨m + 1, lower⟩ .unknown [] (enclose s) =
      span (.nested lower false m) .expression [] s := by
  have hspan : enclosed (s ++ [.sym ')']) = (s, []) :=
    closeSpan_balanced (balanced_of_closers? hp) []
  rw [statement_eq_body _ [] (bareQuery_enclose hc), enclose, body_top (by decide), clause_open, hspan]
  simp only
  rw [body_end, Findings.append_empty]
  rfl

/-! ## Whole texts -/

/-- The summary of a query in parentheses is that of the query as a span. -/
theorem parse_parenthesized_eq (m : Nat) (lower : Bool) {text : Bytes} (hc : text.closes = true)
    (hp : closers? text.tokens = some 0) (htype : (parse ⟨m, lower⟩ text).type = .select) :
    parse ⟨m + 1, lower⟩ (parenthesized text) =
      { type := .select
        references := (span (.nested lower false m) .expression [] text.tokens).references } := by
  rw [parse_eq_tokens] at htype
  rw [parse_eq_tokens, tokens_parenthesized hc, command_bareQuery (bareQuery_enclose htype),
    statement_enclose m lower hp htype]

/-- **A query in parentheses.** Where every quoted text, every comment and every parenthesis is closed and
    no `;` stands, a query that starts with a word gives the same summary in one more pair of parentheses
    with one more level of nesting. Of a query that starts with a parenthesis only what its parentheses
    hold counts then; the summary is the same if no list of tables starts outside them. -/
theorem parse_parenthesized (m : Nat) (lower : Bool) {text : Bytes} (hc : text.closes = true)
    (hp : closers? text.tokens = some 0) (hsemi : .sym ';' ∉ text.tokens)
    (htype : (parse ⟨m, lower⟩ text).type = .select) :
    (text.tokens.head? ≠ some (.sym '(') →
      parse ⟨m + 1, lower⟩ (parenthesized text) = parse ⟨m, lower⟩ text) ∧
    (text.tokens.head? = some (.sym '(') →
      parse ⟨m + 1, lower⟩ (parenthesized text) =
        { type := .select
          references := (expression (.nested lower false m) [] text.tokens).references } ∧
      ((∀ t ∈ outside text.tokens, ¬ StartsTables t) →
        parse ⟨m + 1, lower⟩ (parenthesized text) = parse ⟨m, lower⟩ text)) := by
  have hwhole := parse_parenthesized_eq m lower hc hp htype
  rw [parse_eq_tokens] at htype
  have hcommand : command text.tokens = .select := htype
  -- A query that starts with a word is read as a query in its span, one that starts with a
  -- parenthesis only as an expression.
  have hiff := startsQuery_iff_of_command hcommand
  rw [hwhole, parse_eq_tokens ⟨m, lower⟩ text, hcommand, span]
  constructor
  · intro hhead
    rw [if_pos (hiff.mpr hhead), query_eq_statement m lower hsemi hcommand]
  · intro hhead
    rw [if_neg fun hq => hiff.mp hq hhead]
    refine ⟨rfl, fun hout => ?_⟩
    have hbare : BareQuery text.tokens := by
      refine bareQuery_of_command (fun t ht => ?_) hcommand
      rw [hhead] at ht
      cases ht
      decide
    have hbody : body (.nested lower false m) true [] text.tokens =
        expression (.nested lower false m) [] text.tokens :=
      body_eq_expression (usingTables_nested lower false m) hsemi hout
    rw [statement_eq_body ⟨m, lower⟩ [] hbare]
    exact congrArg (fun found => Summary.mk .select found.references) hbody.symm

/-- The parentheses around a clause with its query lose nothing, those around a union of queries in
    parentheses lose nothing, and those around a union of one such query and a plain one lose the
    table of the latter. -/
theorem parse_parenthesized_union :
    let plain := ascii "WITH a AS (SELECT 1 FROM b) SELECT 1 FROM a, c -- d"
    let both := ascii "(SELECT a FROM t1) UNION (SELECT a FROM t2)"
    let mixed := ascii "(SELECT a FROM t1) UNION SELECT a FROM t2"
    parse ⟨2, false⟩ (parenthesized plain) = parse ⟨1, false⟩ plain ∧
      parse ⟨2, false⟩ (parenthesized both) = parse ⟨1, false⟩ both ∧
      (parse ⟨1, false⟩ mixed).references = [⟨none, "t1"⟩, ⟨none, "t2"⟩] ∧
      (parse ⟨2, false⟩ (parenthesized mixed)).references = [⟨none, "t1"⟩] := by
  intro plain both mixed
  refine ⟨?_, ?_, ?_, ?_⟩
  · refine (parse_parenthesized 1 false ?_ ?_ ?_ ?_).1 ?_ <;> decide +kernel
  · refine ((parse_parenthesized 1 false ?_ ?_ ?_ ?_).2 ?_).2 ?_ <;> decide +kernel
  · decide +kernel
  · have hmixed : parse ⟨2, false⟩ (parenthesized mixed) =
        { type := .select
          references := (expression (.nested false false 1) [] mixed.tokens).references } := by
      refine ((parse_parenthesized 1 false ?_ ?_ ?_ ?_).2 ?_).1 <;> decide +kernel
    rw [hmixed]
    decide +kernel

end SqlTables
