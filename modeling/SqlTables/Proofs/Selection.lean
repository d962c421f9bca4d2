import SqlTables.Proofs.Completeness
import SqlTables.Proofs.Hiding
import SqlTables.Proofs.StatementEnd.Cut

/-!
# `SqlTables.Proofs.Selection` — a query without a clause in front of it

A query that no `WITH` clause opens is read as the rest of any statement is: what its `SELECT` or its
parentheses say about the type changes nothing that is found in it.

## Contents
- **`parse_eq_tokens`**: a text as the list of its tokens.
- **`outer_eq_select`**: all commands but `DELETE` are read in one environment.
- **`StartsTables`**, **`clause_outside`** and **`body_passed`**: tokens that start no list of tables.
- **`BareQuery`**: how a query starts, with `afterOpening_eq_body` and `statement_eq_body`.
- **`bound_body`**: without `WITH` no name is bound.
-/

namespace SqlTables

open TokenSource Grammar

variable {s : List Token} {t : Token}

/-! ## Texts and environments -/

/-- A text may be read from the list of its tokens. -/
theorem parse_eq_tokens (options : Options) (text : Bytes) :
    parse options text =
      { type := command text.tokens
        references := (statement options .unknown [] text.tokens).references } := by
  rw [parse, Summary.read, extract_tokens, extract_eq_statement]
  rfl

/-- Only a `DELETE` is read in an environment of its own. -/
theorem outer_eq_select {σ : Type} [TokenSource σ] {type : StatementType} (h : type ≠ .delete)
    (options : Options) : (Env.outer options type : Env σ) = .outer options .select := by
  have hdelete : (type == StatementType.delete) = (StatementType.select == .delete) := by
    rw [beq_eq_false_iff_ne.mpr h]
    rfl
  rw [Env.outer, Env.outer, hdelete]

theorem faithful_outer (options : Options) (type : StatementType) :
    (Env.outer options type : Env (List Token)).Faithful := faithful_nested _ _ _

/-! ## Tokens outside a list of tables -/

/-- A word that starts a list of tables, unless `USING` does. -/
def StartsTables (t : Token) : Prop := t.isKeyword (fun k => k == .FROM || k.isJoin) = true

instance : DecidablePred StartsTables := fun _ => inferInstanceAs (Decidable (_ = true))

variable {env : Env (List Token)} {bound : List String}

/-- A parenthesis in the body is searched as an expression, and the body goes on behind it. -/
theorem clause_open (env : Env (List Token)) (bound : List String) (rest : List Token) :
    clause env bound (.sym '(') rest =
      (env.search .expression bound (enclosed rest).1, (enclosed rest).2) := by
  unfold clause
  exact if_pos rfl

/-- Outside parentheses a token that starts no list is passed, behind `SELECT` with some more words. -/
theorem clause_outside (hu : env.usingTables = false) (ho : t ≠ .sym '(') (h : ¬ StartsTables t)
    (bound : List String) (rest : List Token) :
    clause env bound t rest = (∅, rest) ∨
      clause env bound t rest = (∅, skipKeywords Keyword.isSelectModifier rest) := by
  unfold clause
  rw [if_neg ho]
  cases hk : t.keyword? with
  | none => exact Or.inl rfl
  | some k =>
      rw [StartsTables, Token.isKeyword_of_keyword? hk, Bool.not_eq_true] at h
      simp only
      rw [h, hu, Bool.and_false, Bool.false_and, if_neg Bool.false_ne_true]
      by_cases hselect : (k == .SELECT) = true
      · rw [if_pos hselect]
        exact Or.inr rfl
      · rw [if_neg hselect, if_neg Bool.false_ne_true]
        exact Or.inl rfl

/-- A token that contributes nothing and is passed, and perhaps some more words with it. -/
theorem body_passes {σ : Type} [TokenSource σ] {env : Env σ} {isTop : Bool} {bound : List String}
    {s rest behind : σ} {t : Token} (hs : next? s = some (t, rest)) (ht : t ≠ .sym ';')
    (hc : clause env bound t rest = (∅, behind)) :
    body env isTop bound s = body env isTop bound behind := by
  rw [body_eq, hs]
  simp only
  rw [if_neg fun h => ht h.2, hc, Findings.empty_append, Findings.bound_empty, List.append_nil]

/-- Names in parentheses are no query. -/
theorem body_names (lower usingTables : Bool) (depth : Nat) (isTop : Bool) (bound : List String)
    (names : Names) (z : List Token) :
    body (Env.nested lower usingTables depth) isTop bound (enclose names.tokens ++ z) =
      body (Env.nested lower usingTables depth) isTop bound z := by
  have hspan : enclosed (names.tokens ++ .sym ')' :: z) = (names.tokens, z) :=
    closeSpan_balanced (balanced_names names) z
  have hclause : clause (Env.nested lower usingTables depth) bound (.sym '(')
      (names.tokens ++ .sym ')' :: z) = (∅, z) := by
    rw [clause_open, hspan, search_names]
  rw [enclose_append]
  exact body_passes (next?_cons _ _) (by decide) hclause

/-- Where no word follows that may stand behind `SELECT`, the token alone is passed. -/
theorem body_passed (hu : env.usingTables = false) (ho : t ≠ .sym '(') (hs : t ≠ .sym ';')
    (h : ¬ StartsTables t) {z : List Token}
    (hz : Starts (fun t => t.isKeyword Keyword.isSelectModifier = false) z) (isTop : Bool) :
    body env isTop bound (t :: z) = body env isTop bound z := by
  rcases clause_outside hu ho h bound z with hc | hc
  · exact body_passes (next?_cons t z) hs hc
  · rw [skipKeywords_stop hz] at hc
    exact body_passes (next?_cons t z) hs hc

/-! ## Queries -/

/-- A query without a clause in front: it starts with `SELECT`, or parentheses stand in front of a query. -/
inductive BareQuery : List Token → Prop where
  | select {t : Token} {rest : List Token} : t.keyword? = some .SELECT → BareQuery (t :: rest)
  | parenthesized {rest : List Token} : startsParenthesizedQuery (Token.sym '(' :: rest) = true →
      BareQuery (.sym '(' :: rest)

/-- `SELECT` is the only word whose command is a query. -/
theorem eq_select_of_statementType? (k : Keyword) (h : k.statementType? = some .select) :
    k = .SELECT := by
  revert h
  exact forall_keyword (P := fun k => k.statementType? = some .select → k = .SELECT) (by decide) k

/-- `SELECT` is the whole opening of a query. -/
theorem opening_keyword_select (env : Env (List Token)) (bound : List String) (hk : t.keyword? = some .SELECT)
    (rest : List Token) : opening env bound (t :: rest) = ⟨∅, .select, rest⟩ := by
  rw [opening_keyword env bound hk (by decide)]
  rfl

/-- In front of a query in parentheses the opening is empty, and the statement is a query. -/
theorem opening_parenthesized (env : Env (List Token)) (bound : List String) {rest : List Token}
    (h : startsParenthesizedQuery (Token.sym '(' :: rest) = true) :
    opening env bound (.sym '(' :: rest) = ⟨∅, .select, .sym '(' :: rest⟩ := by
  rw [opening_eq, next?_cons]
  exact if_pos ⟨rfl, h⟩

/-- The command of a query without a `WITH` clause is `SELECT`, with parentheses or without them. -/
theorem command_bareQuery (h : BareQuery s) : command s = .select := by
  cases h with
  | select hk => rw [command, opening_keyword_select _ _ hk]
  | parenthesized hq => rw [command, opening_parenthesized _ _ hq]

/-- Every `SELECT` is one, unless a clause opens it. -/
theorem bareQuery_of_command (hw : Starts (fun t => t.keyword? ≠ some .WITH) s)
    (hc : command s = .select) : BareQuery s := by
  rw [command] at hc
  cases s with
  | nil =>
      rw [opening_eq] at hc
      cases hc
  | cons t rest =>
      cases hk : t.keyword? with
      | some k =>
          have hne : k ≠ .WITH := by
            rintro rfl
            exact hw t rfl hk
          rw [opening_keyword _ _ hk hne] at hc
          cases hs : k.statementType? with
          | none =>
              rw [hs] at hc
              cases hc
          | some type =>
              rw [hs] at hc
              obtain rfl : type = .select := hc
              exact .select (eq_select_of_statementType? k hs ▸ hk)
      | none =>
          rw [opening_eq, next?_cons] at hc
          simp only [hk] at hc
          by_cases hq : t = .sym '(' ∧ startsParenthesizedQuery (t :: rest) = true
          · obtain ⟨rfl, hq⟩ := hq
            exact .parenthesized hq
          · rw [if_neg hq] at hc
            cases hc

/-- A query is read from its first token on. -/
theorem afterOpening_eq_body (env env' : Env (List Token)) (isTop : Bool) (bound bound' : List String)
    (h : BareQuery s) :
    (opening env bound s).found = ∅ ∧ (opening env bound s).type = .select ∧
      afterOpening env' isTop bound' .select (opening env bound s).rest =
        body env' isTop bound' s := by
  cases h with
  | @select t rest hk =>
      have hsemi : t ≠ .sym ';' := by
        rintro rfl
        cases hk
      rw [opening_keyword_select env bound hk]
      refine ⟨rfl, rfl, ?_⟩
      -- As a target and as a clause `SELECT` passes its modifiers.
      have hclause := clause_keyword_select env' bound' hk rest
      rw [body_passes (next?_cons t rest) hsemi hclause]
      show ∅ ++ body env' isTop (bound' ++ []) (skipKeywords Keyword.isSelectModifier _) = _
      rw [List.append_nil, Findings.empty_append]
  | @parenthesized rest hq =>
      have hstop : Starts (fun t => t.isKeyword Keyword.isSelectModifier = false)
          (Token.sym '(' :: rest) := starts_cons rfl
      rw [opening_parenthesized env bound hq]
      refine ⟨rfl, rfl, ?_⟩
      show ∅ ++ body env' isTop (bound' ++ []) (skipKeywords Keyword.isSelectModifier _) = _
      rw [skipKeywords_stop hstop, List.append_nil, Findings.empty_append]

/-- A query is read as the rest of a statement. -/
theorem statement_eq_body (options : Options) (bound : List String) (h : BareQuery s) :
    statement options .unknown bound s = body (.outer options .select) true bound s := by
  obtain ⟨hfound, htype, hbody⟩ := afterOpening_eq_body (.outer options .unknown)
    (.outer options .select) true bound bound h
  unfold statement
  simp only
  rw [htype, hfound, Findings.empty_append, Findings.bound_empty, List.append_nil]
  exact hbody

/-! ## Names -/

/-- Without a `WITH` the body of a statement binds no name. -/
theorem bound_body (options : Options) (type : StatementType) (isTop : Bool) (bound : List String)
    (h : ∀ t ∈ s, t.keyword? ≠ some .WITH) :
    (body (.outer options type) isTop bound s).bound = [] := by
  have hfollows : Follows (Without .WITH) s s := by
    apply follows_without
    rw [tokens_list]
    exact h
  have hfound := body_rel (envRel_unbound options.lowerCaseNames (type == .delete) options.maxDepth)
    isTop (b := bound) (c := bound) trivial hfollows
  exact hfound

end SqlTables
