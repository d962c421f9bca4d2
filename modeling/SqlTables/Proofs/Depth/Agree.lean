import SqlTables.Proofs.Occurrence
import SqlTables.Proofs.Statement

/-!
# `SqlTables.Proofs.Depth.Agree` — searches that agree on smaller spans

Every routine searches only spans that are opened by a parenthesis of its own tokens, so a span holds at
least one parenthesis fewer. Two environments that agree on the spans with fewer than `n` parentheses
therefore read tokens with at most `n` of them in the same way, and the depth of the search does not
matter once it is as large as the number of parentheses.

## Contents
- **`opens`**: the number of parentheses that tokens open.
- **`Env.Agrees`** and one lemma `…_agrees` for each routine, up to `span_agrees`.
- **`nested_agrees`** and **`statement_agrees`**: depths that are large enough.
-/

namespace SqlTables

open TokenSource

/-! ## Opening parentheses -/

/-- The number of parentheses that tokens open. -/
def opens (s : List Token) : Nat := s.count (.sym '(')

variable {s rest inside : List Token} {t : Token} {n : Nat}

theorem opens_le_of_suffix (h : rest <:+ s) : opens rest ≤ opens s := h.sublist.count_le _

theorem opens_paren (s : List Token) : opens (.sym '(' :: s) = opens s + 1 :=
  List.count_cons_self

/-- A span has no more parentheses than the tokens it stands in. -/
theorem opens_span_le (s : List Token) : opens (enclosed s).1 ≤ opens s := by
  obtain ⟨close, hs⟩ := closeSpan_append 0 s
  have hle : (closeSpan 0 s).1.count (.sym '(') ≤
      ((closeSpan 0 s).1 ++ close ++ (closeSpan 0 s).2).count (.sym '(') := by
    rw [List.append_assoc, List.count_append]
    exact Nat.le_add_right _ _
  rw [← hs] at hle
  exact hle

/-- A span holds fewer parentheses than the tokens that its own parenthesis stands in. -/
theorem opens_span_lt (h : .sym '(' :: inside <:+ s) : opens (enclosed inside).1 < opens s := by
  have hinside := opens_le_of_suffix h
  rw [opens_paren] at hinside
  exact Nat.lt_of_le_of_lt (opens_span_le inside) hinside

/-! ## Environments that agree -/

/-- The environments differ at most in the search of spans with `n` parentheses or more. -/
structure Env.Agrees (n : Nat) (env env' : Env (List Token)) : Prop where
  faithful : env.Faithful
  lower : env.lower = env'.lower
  usingTables : env.usingTables = env'.usingTables
  search (place : Place) (bound : List String) (s : List Token) : opens s < n →
    env.search place bound s = env'.search place bound s

variable {env env' : Env (List Token)} {bound : List String}

/-- The span behind a parenthesis of the tokens is searched alike. -/
theorem Env.Agrees.span (h : env.Agrees n env') (hs : opens s ≤ n) (hi : .sym '(' :: inside <:+ s)
    (place : Place) (bound : List String) :
    env.search place bound (enclosed inside).1 = env'.search place bound (enclosed inside).1 :=
  h.search place bound _ (Nat.lt_of_lt_of_le (opens_span_lt hi) hs)

/-! ## Names -/

theorem record_agrees (h : env.Agrees n env') (bound : List String) (name : QualifiedName) :
    env.record bound name = env'.record bound name := by
  unfold Env.record
  rw [h.lower]

theorem tableName?_agrees (h : env.Agrees n env') (bound : List String) (s : List Token) :
    tableName? env bound s = tableName? env' bound s := by
  unfold tableName?
  simp only [record_agrees h]

theorem tableName_agrees (h : env.Agrees n env') (bound : List String) (s : List Token) :
    tableName env bound s = tableName env' bound s := by
  unfold tableName
  rw [tableName?_agrees h]

/-- Lists of names have no parentheses, so the number of them does not matter. -/
theorem tableNames_agrees (h : env.Agrees n env') (bound : List String) (s : List Token) :
    tableNames env bound s = tableNames env' bound s := by
  fun_induction tableNames env bound s with
  | case1 s hn => rw [tableNames_eq env', ← tableName?_agrees h, hn]
  | case2 s found rest hn hc =>
      rw [tableNames_eq env', ← tableName?_agrees h, hn]
      simp only
      rw [hc]
  | case3 s found rest hn next hc more ih =>
      rw [tableNames_eq env', ← tableName?_agrees h, hn]
      simp only
      rw [hc]
      simp only
      rw [← ih]

/-- The table behind `ON` is found in the same way. -/
theorem tableAfterOn_agrees (h : env.Agrees n env') (bound : List String) (s : List Token) :
    tableAfterOn env bound s = tableAfterOn env' bound s := by
  fun_induction tableAfterOn env bound s with
  | case1 s hn => rw [tableAfterOn_eq env', hn]
  | case2 s rest hn =>
      rw [tableAfterOn_eq env', hn]
      rfl
  | case3 s t rest hn hs ho =>
      rw [tableAfterOn_eq env', hn]
      simp only
      rw [if_neg hs, if_pos ho]
      exact tableName_agrees h bound rest
  | case4 s t rest hn hs ho ih =>
      rw [tableAfterOn_eq env', hn]
      simp only
      rw [if_neg hs, if_neg ho]
      exact ih

theorem ddlTargets_agrees (h : env.Agrees n env') (bound : List String) (type : StatementType)
    (s : List Token) : ddlTargets env bound type s = ddlTargets env' bound type s := by
  unfold ddlTargets
  simp only [tableNames_agrees h, tableName_agrees h, tableAfterOn_agrees h]

/-! ## Lists -/

/-- An item in parentheses is searched on a level that holds one parenthesis less. -/
theorem tableItem?_agrees (h : env.Agrees n env') (hs : opens s ≤ n) (bound : List String) :
    tableItem? env bound s = tableItem? env' bound s := by
  unfold tableItem?
  cases hi : acceptSym? '(' s with
  | some inside =>
      obtain rfl := acceptSym?_eq_some_iff.mp hi
      simp only
      rw [h.span hs (List.suffix_refl _)]
  | none =>
      simp only
      rw [tableName?_agrees h]

/-- A list is read in the same way where it has no more parentheses than the levels agree on. -/
theorem tableList_agrees (h : env.Agrees n env') (hs : opens s ≤ n) (bound : List String) :
    tableList env bound s = tableList env' bound s := by
  fun_induction tableList env bound s with
  | case1 bound s hi => rw [tableList_eq env', ← tableItem?_agrees h hs, hi]
  | case2 bound s found rest hi hn =>
      rw [tableList_eq env', ← tableItem?_agrees h hs, hi]
      simp only
      rw [hn]
  | case3 bound s found rest hi next hn more ih =>
      -- What is left behind the first item is an end of the list, and has no more parentheses.
      have hnext : next <:+ s :=
        (nextTable?_suffix hn).trans (suffix_of_reads (tableItem?_reads h.faithful hi))
      have hmore := ih (Nat.le_trans (opens_le_of_suffix hnext) hs)
      rw [tableList_eq env', ← tableItem?_agrees h hs, hi]
      simp only
      rw [hn]
      simp only
      rw [← hmore]

/-! ## `WITH` clauses and openings -/

/-- The body of a definition stands behind its parenthesis. -/
theorem openBody_eq_ok (h : openBody s = .ok inside) : .sym '(' :: inside <:+ s := by
  unfold openBody at h
  split at h
  · cases h
  · next rest ha =>
      split at h
      · cases h
      · next hp =>
          cases h
          rw [← acceptSym?_eq_some_iff.mp hp]
          exact accept?_suffix ha

/-- Definitions are read in the same way where they have no more parentheses than the levels agree on. -/
theorem commonTables_agrees (h : env.Agrees n env') (isRecursive : Bool) (hs : opens s ≤ n)
    (bound : List String) :
    commonTables env isRecursive bound s = commonTables env' isRecursive bound s := by
  fun_induction commonTables env isRecursive bound s with
  | case1 bound s hn => rw [commonTables_eq env', hn]
  | case2 bound s t rest hn hi name early stop hb =>
      rw [commonTables_eq env', hn]
      simp only
      rw [if_pos hi, hb, ← h.lower]
      rfl
  | case3 bound s t rest hn hi name early late inside hb found hc =>
      -- The parenthesis of the body is one of those that are counted, so its span may be searched.
      obtain rfl := next?_eq_some_iff.mp hn
      have hinside : .sym '(' :: inside <:+ t :: rest :=
        (openBody_eq_ok hb).trans ((skipSpan_suffix rest).trans (List.suffix_cons t rest))
      rw [commonTables_eq env', hn]
      simp only
      rw [if_pos hi, hb, ← h.lower]
      simp only
      rw [hc, ← h.span hs hinside]
      rfl
  | case4 bound s t rest hn hi name early late inside hb found next hc more ih =>
      obtain rfl := next?_eq_some_iff.mp hn
      have hinside : .sym '(' :: inside <:+ t :: rest :=
        (openBody_eq_ok hb).trans ((skipSpan_suffix rest).trans (List.suffix_cons t rest))
      have hnext : next <:+ t :: rest :=
        (accept?_suffix hc).trans ((afterSpan_suffix inside).trans
          ((List.suffix_cons _ inside).trans hinside))
      have hmore := ih (Nat.le_trans (opens_le_of_suffix hnext) hs)
      rw [commonTables_eq env', hn]
      simp only
      rw [if_pos hi, hb, ← h.lower]
      simp only
      rw [hc, ← h.span hs hinside]
      exact congrArg (fun more : Findings × List Token => (found ++ more.1, more.2)) hmore
  | case5 bound s t rest hn hi =>
      rw [commonTables_eq env', hn]
      simp only
      rw [if_neg hi]

/-- A `WITH` clause is read in the same way, with `RECURSIVE` and without it. -/
theorem withClause_agrees (h : env.Agrees n env') (hs : opens s ≤ n) (bound : List String) :
    withClause env bound s = withClause env' bound s := by
  unfold withClause
  split
  · next rest hr =>
      have hrest := opens_le_of_suffix (accept?_suffix hr)
      exact commonTables_agrees h true (Nat.le_trans hrest hs) bound
  · exact commonTables_agrees h false hs bound

/-- The opening of a statement is read in the same way, also behind further `WITH` clauses. -/
theorem opening_agrees (h : env.Agrees n env') (hs : opens s ≤ n) (bound : List String) :
    opening env bound s = opening env' bound s := by
  fun_induction opening env bound s with
  | case1 bound s hn => rw [opening_eq env', hn]
  | case2 bound s t rest hn hk clause more ih =>
      obtain rfl := next?_eq_some_iff.mp hn
      have hrest := opens_le_of_suffix (List.suffix_cons t rest)
      -- What is left behind a clause has no more parentheses than what the clause was read from.
      have hclause := withClause_agrees h (Nat.le_trans hrest hs) bound
      have hbehind := suffix_of_reads (withClause_reads h.faithful bound rest)
      have hmore := ih (Nat.le_trans (opens_le_of_suffix hbehind) (Nat.le_trans hrest hs))
      rw [opening_eq env', hn]
      simp only [hk]
      rw [← hclause, ← hmore]
  | case3 bound s t rest hn k hw hk type ht =>
      rw [opening_eq env', hn]
      simp only [hk, ht]
  | case4 bound s t rest hn k hw hk ht =>
      rw [opening_eq env', hn]
      simp only [hk, ht]
  | case5 bound s t rest hn hk hq =>
      rw [opening_eq env', hn]
      simp only [hk]
      rw [if_pos hq]
  | case6 bound s t rest hn hk hq =>
      rw [opening_eq env', hn]
      simp only [hk]
      rw [if_neg hq]

/-! ## Statements -/

/-- The targets of a command are found in the same way. -/
theorem targets_agrees (h : env.Agrees n env') (hs : opens s ≤ n) (bound : List String)
    (type : StatementType) : targets env bound type s = targets env' bound type s := by
  cases type with
  | insert | replace => exact tableName_agrees h bound _
  | update =>
      have hrest := opens_le_of_suffix (skipKeywords_suffix Keyword.isUpdateModifier s)
      exact tableList_agrees h (Nat.le_trans hrest hs) bound
  | alter | drop | create | truncate => exact ddlTargets_agrees h bound _ s
  | select | delete | unknown => rfl

/-- What belongs to a token of the body is read in the same way. Only a parenthesis is searched on another
    level. -/
theorem clause_agrees (h : env.Agrees n env') (hs : opens (t :: rest) ≤ n) (bound : List String) :
    clause env bound t rest = clause env' bound t rest := by
  have hrest : opens rest ≤ n :=
    Nat.le_trans (opens_le_of_suffix (List.suffix_cons t rest)) hs
  unfold clause
  simp only [tableList_agrees h hrest, h.usingTables]
  by_cases ht : t = .sym '('
  · subst ht
    rw [h.span hs (List.suffix_refl _)]
  · rw [if_neg ht, if_neg ht]

/-- A body is read in the same way. The induction is along its clauses, none of which adds a parenthesis. -/
theorem body_agrees (h : env.Agrees n env') (isTop : Bool) (hs : opens s ≤ n)
    (bound : List String) : body env isTop bound s = body env' isTop bound s := by
  fun_induction body env isTop bound s with
  | case1 bound s hn => rw [body_eq env', hn]
  | case2 bound s t rest hn ht =>
      rw [body_eq env', hn]
      simp only
      rw [if_pos ht]
  | case3 bound s t rest hn ht part ih =>
      obtain rfl := next?_eq_some_iff.mp hn
      have hpart := clause_agrees h hs bound
      have hbehind : (clause env bound t rest).2 <:+ t :: rest :=
        (suffix_of_reads (clause_reads h.faithful bound t rest)).trans (List.suffix_cons t rest)
      have hmore := ih (Nat.le_trans (opens_le_of_suffix hbehind) hs)
      rw [body_eq env', hn]
      simp only
      rw [if_neg ht, ← hpart, ← hmore]

/-- An expression is searched in the same way, one span after the other. -/
theorem expression_agrees (h : env.Agrees n env') (hs : opens s ≤ n) (bound : List String) :
    expression env bound s = expression env' bound s := by
  fun_induction expression env bound s with
  | case1 bound s hn => rw [expression_eq env', hn]
  | case2 bound s rest found hn ih =>
      obtain rfl := next?_eq_some_iff.mp hn
      have hbehind : (enclosed rest).2 <:+ .sym '(' :: rest :=
        (afterSpan_suffix rest).trans (List.suffix_cons _ rest)
      have hmore := ih (Nat.le_trans (opens_le_of_suffix hbehind) hs)
      rw [expression_eq env', hn]
      simp only
      rw [if_pos trivial, ← h.span hs (List.suffix_refl _), ← hmore]
  | case3 bound s t rest hn ht ih =>
      obtain rfl := next?_eq_some_iff.mp hn
      have hrest := opens_le_of_suffix (List.suffix_cons t rest)
      rw [expression_eq env', hn]
      simp only
      rw [if_neg ht]
      exact ih (Nat.le_trans hrest hs)

theorem afterOpening_agrees (h : env.Agrees n env') (isTop : Bool) (hs : opens s ≤ n)
    (bound : List String) (type : StatementType) :
    afterOpening env isTop bound type s = afterOpening env' isTop bound type s := by
  have hbehind := opens_le_of_suffix (suffix_of_reads (targets_reads h.faithful bound type s))
  unfold afterOpening
  simp only
  rw [← targets_agrees h hs, body_agrees h isTop (Nat.le_trans hbehind hs)]

theorem query_agrees (h : env.Agrees n env') (hs : opens s ≤ n) (bound : List String) :
    query env bound s = query env' bound s := by
  have hbehind := opens_le_of_suffix (suffix_of_reads (opening_reads h.faithful bound s))
  unfold query
  simp only
  rw [← opening_agrees h hs, afterOpening_agrees h false (Nat.le_trans hbehind hs)]

/-- A span is searched in the same way, as a query, as an expression or as a list. -/
theorem span_agrees (h : env.Agrees n env') (hs : opens s ≤ n) (place : Place)
    (bound : List String) : span env place bound s = span env' place bound s := by
  have hbehind := opens_le_of_suffix (suffix_of_reads (tableList_reads h.faithful bound s))
  unfold span
  rw [query_agrees h hs]
  cases place with
  | expression =>
      simp only
      rw [expression_agrees h hs]
  | tableList =>
      simp only
      rw [← tableList_agrees h hs, body_agrees h false (Nat.le_trans hbehind hs)]

/-! ## Depths that are large enough -/

/-- Two depths that are both large enough search alike. -/
theorem nested_agrees (lower usingTables : Bool) {m k : Nat} (hm : n ≤ m) (hk : n ≤ k) :
    (Env.nested lower usingTables m).Agrees n (.nested lower usingTables k) := by
  -- One level uses up one parenthesis and one of either depth.
  induction n generalizing m k with
  | zero =>
      refine ⟨faithful_nested _ _ _, ?_, ?_, ?_⟩
      · rw [lower_nested, lower_nested]
      · rw [usingTables_nested, usingTables_nested]
      · intro place bound s hlt
        exact absurd hlt (Nat.not_lt_zero _)
  | succ n ih =>
      obtain ⟨m, rfl⟩ := Nat.exists_eq_succ_of_ne_zero (Nat.ne_zero_of_lt hm)
      obtain ⟨k, rfl⟩ := Nat.exists_eq_succ_of_ne_zero (Nat.ne_zero_of_lt hk)
      have hinner := ih (Nat.le_of_succ_le_succ hm) (Nat.le_of_succ_le_succ hk)
      refine ⟨faithful_nested _ _ _, ?_, ?_, ?_⟩
      · rw [lower_nested, lower_nested]
      · rw [usingTables_nested, usingTables_nested]
      · intro place bound s hlt
        rw [nested_succ, nested_succ]
        exact span_agrees hinner (Nat.le_of_lt_succ hlt) place bound

/-- Two limits of at least the number of parentheses that open in a statement read it in the same way. -/
theorem statement_agrees {m k : Nat} (lower : Bool) (hm : opens s ≤ m) (hk : opens s ≤ k)
    (held : StatementType) (bound : List String) :
    statement ⟨m, lower⟩ held bound s = statement ⟨k, lower⟩ held bound s := by
  have hE : ∀ type : StatementType, (Env.outer ⟨m, lower⟩ type).Agrees (opens s)
      (.outer ⟨k, lower⟩ type) := fun type => nested_agrees _ _ hm hk
  have hbehind := opens_le_of_suffix (suffix_of_reads (opening_reads (hE held).faithful bound s))
  unfold statement
  simp only
  rw [← opening_agrees (hE held) (Nat.le_refl _), afterOpening_agrees (hE _) true hbehind]

end SqlTables
