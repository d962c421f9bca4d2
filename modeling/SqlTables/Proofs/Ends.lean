import SqlTables.Proofs.Statement

/-!
# `SqlTables.Proofs.Ends` — where a routine ends

A name that is not recorded because it is bound is a name all the same, and reading goes on behind it. So where
a routine ends depends neither on the names that are bound nor on what it finds: it is the same place under any
other environment and behind any other names. For `WITH` clauses this is `rest_withClause`.

## Contents
- One lemma `rest_…` for each routine that leaves something, up to `rest_clause`.
- **`bodyTo`** and `fst_bodyTo`: the rest of a statement together with the place where it ends.
- **`rest_bodyTo`**: this place.
-/

namespace SqlTables

open TokenSource

variable {σ : Type} [TokenSource σ]

/-! ## Tables and lists -/

section

variable {α : Type} {x y : Option (Findings × α)} {f : Findings} {rest : α}

theorem eq_none_of_rest (h : x.map Prod.snd = y.map Prod.snd) (hx : x = none) : y = none := by
  rw [hx] at h
  exact Option.map_eq_none_iff.mp h.symm

/-- What ends at the same place has found something on both sides, if on one. -/
theorem exists_of_rest (h : x.map Prod.snd = y.map Prod.snd) (hx : x = some (f, rest)) :
    ∃ g, y = some (g, rest) := by
  rw [hx] at h
  obtain ⟨⟨g, rest'⟩, rfl, hrest⟩ := Option.map_eq_some_iff.mp h.symm
  obtain rfl : rest' = rest := hrest
  exact ⟨g, rfl⟩

end

/-- Whether a name comes next, and where it ends. -/
theorem rest_tableName? (env env' : Env σ) (b c : List String) (s : σ) :
    (tableName? env b s).map Prod.snd = (tableName? env' c s).map Prod.snd := by
  unfold tableName?
  rw [Option.map_map, Option.map_map]
  rfl

/-- A name that is not recorded is passed over all the same. -/
theorem rest_tableName (env env' : Env σ) (b c : List String) (s : σ) :
    (tableName env b s).2 = (tableName env' c s).2 := by
  have hrest := rest_tableName? env env' b c s
  unfold tableName
  cases h : tableName? env b s with
  | none => rw [eq_none_of_rest hrest h]
  | some x =>
      obtain ⟨g, hg⟩ := exists_of_rest hrest h
      rw [hg]
      rfl

/-- A list of names goes on behind a comma, whatever the name in front of it was. -/
theorem rest_tableNames (env env' : Env σ) (b c : List String) (s : σ) :
    (tableNames env b s).2 = (tableNames env' c s).2 := by
  fun_induction tableNames env b s with
  | case1 s h => rw [tableNames_eq, eq_none_of_rest (rest_tableName? env env' b c s) h]
  | case2 s found rest h hc =>
      obtain ⟨g, hg⟩ := exists_of_rest (rest_tableName? env env' b c s) h
      rw [tableNames_eq, hg]
      simp only [hc]
  | case3 s found rest h next hc more ih =>
      obtain ⟨g, hg⟩ := exists_of_rest (rest_tableName? env env' b c s) h
      rw [tableNames_eq, hg]
      simp only [hc]
      exact ih

/-- The search for `ON` looks at tokens only. -/
theorem rest_tableAfterOn (env env' : Env σ) (b c : List String) (s : σ) :
    (tableAfterOn env b s).2 = (tableAfterOn env' c s).2 := by
  fun_induction tableAfterOn env b s with
  | case1 s h => rw [tableAfterOn_eq, h]
  | case2 s rest h =>
      rw [tableAfterOn_eq, h]
      simp only [if_true]
  | case3 s t rest h hs ho =>
      rw [tableAfterOn_eq env', h]
      simp only
      rw [if_neg hs, if_pos ho]
      exact rest_tableName env env' b c rest
  | case4 s t rest h hs ho ih =>
      rw [tableAfterOn_eq env', h]
      simp only
      rw [if_neg hs, if_neg ho]
      exact ih

/-- Which object a schema change is about is told by its words, not by what is bound. -/
theorem rest_ddlTargets (env env' : Env σ) (b c : List String) (type : StatementType) (s : σ) :
    (ddlTargets env b type s).2 = (ddlTargets env' c type s).2 := by
  unfold ddlTargets
  split
  · split
    · exact rest_tableNames env env' b c _
    · exact rest_tableName env env' b c _
  · exact rest_tableAfterOn env env' b c _
  · rfl

/-- An item ends behind its alias and its hints, which no name has a part in. -/
theorem rest_tableItem? (env env' : Env σ) (b c : List String) (s : σ) :
    (tableItem? env b s).map Prod.snd = (tableItem? env' c s).map Prod.snd := by
  have hrest := rest_tableName? env env' b c s
  unfold tableItem?
  split
  · rfl
  · split
    · rfl
    · cases h : tableName? env b s with
      | none => rw [eq_none_of_rest hrest h]
      | some x =>
          obtain ⟨g, hg⟩ := exists_of_rest hrest h
          rw [hg]
          rfl

/-- A list of tables goes on as long as items come. The names that they bind differ between the runs, and so
    the induction is for all of them. -/
theorem rest_tableList (env env' : Env σ) (b c : List String) (s : σ) :
    (tableList env b s).2 = (tableList env' c s).2 := by
  fun_induction tableList env b s generalizing c with
  | case1 b s h => rw [tableList_eq, eq_none_of_rest (rest_tableItem? env env' b c s) h]
  | case2 b s found rest h hn =>
      obtain ⟨g, hg⟩ := exists_of_rest (rest_tableItem? env env' b c s) h
      rw [tableList_eq, hg]
      simp only [hn]
  | case3 b s found rest h next hn more ih =>
      obtain ⟨g, hg⟩ := exists_of_rest (rest_tableItem? env env' b c s) h
      rw [tableList_eq, hg]
      simp only [hn]
      exact ih _

/-! ## Targets -/

/-- The tables of a command end at the same place, be they a name, a list or the end of a search. -/
theorem rest_targets (env env' : Env σ) (b c : List String) (type : StatementType) (s : σ) :
    (targets env b type s).2 = (targets env' c type s).2 := by
  cases type with
  | insert | replace => exact rest_tableName env env' b c _
  | update => exact rest_tableList env env' b c _
  | alter | drop | create | truncate => exact rest_ddlTargets env env' b c _ s
  | select | delete | unknown => rfl

/-! ## The rest of a statement -/

/-- Only a `USING` asks for the environment. -/
theorem rest_clause {env env' : Env σ} (h : env.usingTables = env'.usingTables) (b c : List String)
    (t : Token) (rest : σ) : (clause env b t rest).2 = (clause env' c t rest).2 := by
  unfold clause
  rw [h]
  split
  · rfl
  · split
    · split
      · exact rest_tableList env env' b c rest
      · split
        · rfl
        · split
          · exact rest_tableList env env' b c rest
          · rfl
    · rfl

/-- The rest of a statement, and what follows the place where it ends: nothing, or else what follows a `;`. -/
def bodyTo (env : Env Bytes) (isTop : Bool) (bound : List String) (s : Bytes) : Findings × Bytes :=
  match _h : next? s with
  | none => (∅, [])
  | some (t, rest) =>
      if isTop ∧ t = .sym ';' then (∅, rest)
      else
        let part := clause env bound t rest
        let more := bodyTo env isTop (bound ++ part.1.bound) part.2
        (part.1 ++ more.1, more.2)
termination_by size s
decreasing_by exact Nat.lt_of_le_of_lt (size_clause_le env bound t rest) (size_lt_of_next? ‹_›)

/-- The rest of a body with its end, one token at a time. -/
theorem bodyTo_eq (env : Env Bytes) (isTop : Bool) (bound : List String) (s : Bytes) :
    bodyTo env isTop bound s = match next? s with
      | none => (∅, [])
      | some (t, rest) =>
          if isTop ∧ t = .sym ';' then (∅, rest)
          else
            let part := clause env bound t rest
            let more := bodyTo env isTop (bound ++ part.1.bound) part.2
            (part.1 ++ more.1, more.2) := by
  rw [bodyTo]
  split <;> next h => rw [h]

/-- What is found in a body does not depend on whether its end is kept. -/
theorem fst_bodyTo (env : Env Bytes) (isTop : Bool) (bound : List String) (s : Bytes) :
    (bodyTo env isTop bound s).1 = body env isTop bound s := by
  fun_induction bodyTo env isTop bound s with
  | case1 bound s h => rw [body_eq, h]
  | case2 bound s t rest h ht =>
      rw [body_eq, h]
      exact (if_pos ht).symm
  | case3 bound s t rest h ht part more ih =>
      rw [body_eq, h]
      simp only [if_neg ht]
      rw [ih]

/-- The rest of a statement ends at a `;` or with the text. -/
theorem rest_bodyTo {env env' : Env Bytes} (h : env.usingTables = env'.usingTables) (isTop : Bool)
    (b c : List String) (s : Bytes) : (bodyTo env isTop b s).2 = (bodyTo env' isTop c s).2 := by
  fun_induction bodyTo env isTop b s generalizing c with
  | case1 b s hn => rw [bodyTo_eq, hn]
  | case2 b s t rest hn ht =>
      rw [bodyTo_eq, hn]
      simp only
      rw [if_pos ht]
  | case3 b s t rest hn ht part more ih =>
      rw [bodyTo_eq env', hn]
      simp only
      -- Behind the clause both runs stand at one place, with other names.
      rw [if_neg ht, ← rest_clause h b c t rest]
      exact ih _

end SqlTables
