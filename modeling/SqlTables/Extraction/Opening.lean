import SqlTables.Extraction.QualifiedName

/-!
# `SqlTables.Extraction.Opening` — how a statement opens

A statement opens with its command, in front of which `WITH` clauses may bind names to queries.

## Contents
- **`commonTables`**: the definitions of one `WITH` clause.
- **`withClause`**: the clause after its first word.
- **`Opening`** and **`opening`**: all clauses and the command.
-/

namespace SqlTables

open TokenSource

variable {σ : Type} [TokenSource σ]

/-! ## `WITH` clauses -/

/-- What follows `AS (`, or else the place where something other than that was met. -/
def openBody (s : σ) : Except σ σ :=
  match acceptKeyword? (· == .AS) s with
  | none => .error s
  | some rest =>
      match acceptSym? '(' rest with
      | none => .error rest
      | some inside => .ok inside

/-- A body starts behind its parenthesis, so less is left. -/
theorem size_openBody_ok {s inside : σ} (h : openBody s = .ok inside) : size inside < size s := by
  unfold openBody at h
  split at h
  · cases h
  · next rest ha =>
      split at h
      · cases h
      · next r hp =>
          cases h
          exact Nat.lt_trans (size_lt_of_accept? hp) (size_lt_of_accept? ha)

/-- Where a body is missing, no more is left than was there. -/
theorem size_openBody_error {s stop : σ} (h : openBody s = .error stop) : size stop ≤ size s := by
  unfold openBody at h
  split at h
  · cases h
    exact Nat.le_refl _
  · next rest ha =>
      split at h
      · cases h
        exact Nat.le_of_lt (size_lt_of_accept? ha)
      · cases h

/-- The definitions `name [(columns)] AS (body)` of a `WITH` clause from here on. A body sees the
    names defined before it, and with `RECURSIVE` its own. A name whose body is missing is bound only
    with `RECURSIVE`, and the clause ends there. -/
def commonTables (env : Env σ) (isRecursive : Bool) (bound : List String) (s : σ) : Findings × σ :=
  match _h : next? s with
  | none => (∅, s)
  | some (t, rest) =>
      if t.isIdentifier then
        let name := [t.name env.lower]
        let early := Findings.ofNames (if isRecursive then name else [])
        let late := Findings.ofNames (if isRecursive then [] else name)
        match _hb : openBody (skipSpan rest) with
        | .error stop => (early, stop)
        | .ok inside =>
            let found :=
              early ++ env.search .expression (bound ++ early.bound) (enclosed inside).1 ++ late
            match _hc : acceptSym? ',' (enclosed inside).2 with
            | none => (found, (enclosed inside).2)
            | some next =>
                let more := commonTables env isRecursive (bound ++ found.bound) next
                (found ++ more.1, more.2)
      else (∅, s)
termination_by size s
decreasing_by
  have h1 := size_lt_of_next? ‹next? s = _›
  have h2 := size_skipSpan_le rest
  have h3 := size_openBody_ok ‹openBody _ = _›
  have h4 := size_afterSpan_le inside
  have h5 := size_lt_of_accept? ‹acceptSym? ',' _ = _›
  omega

/-- The definitions behind `WITH`, one at a time. -/
theorem commonTables_eq (env : Env σ) (isRecursive : Bool) (bound : List String) (s : σ) :
    commonTables env isRecursive bound s = match next? s with
      | none => (∅, s)
      | some (t, rest) =>
          if t.isIdentifier then
            let name := [t.name env.lower]
            let early := Findings.ofNames (if isRecursive then name else [])
            let late := Findings.ofNames (if isRecursive then [] else name)
            match openBody (skipSpan rest) with
            | .error stop => (early, stop)
            | .ok inside =>
                let found :=
                  early ++ env.search .expression (bound ++ early.bound) (enclosed inside).1 ++ late
                match acceptSym? ',' (enclosed inside).2 with
                | none => (found, (enclosed inside).2)
                | some next =>
                    let more := commonTables env isRecursive (bound ++ found.bound) next
                    (found ++ more.1, more.2)
          else (∅, s) := by
  rw [commonTables]
  split
  · next h => rw [h]
  · next h =>
      rw [h]
      simp only
      split
      · split
        · next hb => rw [hb]
        · next hb =>
            rw [hb]
            simp only
            split <;> next hc => rw [hc]
      · rfl

/-- Behind definitions no more is left than was there. -/
theorem size_commonTables_le (env : Env σ) (isRecursive : Bool) (bound : List String) (s : σ) :
    size (commonTables env isRecursive bound s).2 ≤ size s := by
  fun_induction commonTables env isRecursive bound s with
  | case1 => exact Nat.le_refl _
  | case2 bound s t rest h hi name early stop hb =>
      have h1 := size_lt_of_next? h
      have h2 := size_skipSpan_le rest
      have h3 := size_openBody_error hb
      exact Nat.le_trans h3 (by omega)
  | case3 bound s t rest h hi name early late inside hb found hc =>
      have h1 := size_lt_of_next? h
      have h2 := size_skipSpan_le rest
      have h3 := size_openBody_ok hb
      have h4 := size_afterSpan_le inside
      exact Nat.le_trans h4 (by omega)
  | case4 bound s t rest h hi name early late inside hb found next hc more ih =>
      have h1 := size_lt_of_next? h
      have h2 := size_skipSpan_le rest
      have h3 := size_openBody_ok hb
      have h4 := size_afterSpan_le inside
      have h5 := size_lt_of_accept? hc
      exact Nat.le_trans ih (by omega)
  | case5 => exact Nat.le_refl _

/-- A `WITH` clause after that word. -/
def withClause (env : Env σ) (bound : List String) (s : σ) : Findings × σ :=
  match acceptKeyword? (· == .RECURSIVE) s with
  | some rest => commonTables env true bound rest
  | none => commonTables env false bound s

/-- Behind a `WITH` clause no more is left than was there. -/
theorem size_withClause_le (env : Env σ) (bound : List String) (s : σ) :
    size (withClause env bound s).2 ≤ size s := by
  unfold withClause
  split
  · next rest h =>
      exact Nat.le_trans (size_commonTables_le env true bound rest)
        (Nat.le_of_lt (size_lt_of_accept? h))
  · exact size_commonTables_le env false bound s

/-! ## The command -/

/-- How a statement opens: what its `WITH` clauses contribute, its type and what follows. -/
structure Opening (σ : Type) where
  found : Findings
  type : StatementType
  rest : σ

/-- Whether a query comes next, or follows after opening parentheses only. -/
def startsParenthesizedQuery (s : σ) : Bool := startsQuery (skipWhile (· == .sym '(') s)

/-- Reads `WITH` clauses and the command. A query in parentheses is a `SELECT`, whose parentheses are
    left to be read; any other start leaves the type unknown and is left too. -/
def opening (env : Env σ) (bound : List String) (s : σ) : Opening σ :=
  match _h : next? s with
  | none => ⟨∅, .unknown, s⟩
  | some (t, rest) =>
      match t.keyword? with
      | some .WITH =>
          let clause := withClause env bound rest
          let more := opening env (bound ++ clause.1.bound) clause.2
          { more with found := clause.1 ++ more.found }
      | some k =>
          match k.statementType? with
          | some type => ⟨∅, type, rest⟩
          | none => ⟨∅, .unknown, s⟩
      | none =>
          if t = .sym '(' ∧ startsParenthesizedQuery s then ⟨∅, .select, s⟩
          else ⟨∅, .unknown, s⟩
termination_by size s
decreasing_by
  exact Nat.lt_of_le_of_lt (size_withClause_le env bound rest) (size_lt_of_next? ‹_›)

/-- The opening of a statement, one clause at a time. -/
theorem opening_eq (env : Env σ) (bound : List String) (s : σ) :
    opening env bound s = match next? s with
      | none => ⟨∅, .unknown, s⟩
      | some (t, rest) =>
          match t.keyword? with
          | some .WITH =>
              let clause := withClause env bound rest
              let more := opening env (bound ++ clause.1.bound) clause.2
              { more with found := clause.1 ++ more.found }
          | some k =>
              match k.statementType? with
              | some type => ⟨∅, type, rest⟩
              | none => ⟨∅, .unknown, s⟩
          | none =>
              if t = .sym '(' ∧ startsParenthesizedQuery s then ⟨∅, .select, s⟩
              else ⟨∅, .unknown, s⟩ := by
  rw [opening]
  split <;> next h => rw [h]

/-- Behind an opening no more is left than was there. -/
theorem size_opening_le (env : Env σ) (bound : List String) (s : σ) :
    size (opening env bound s).rest ≤ size s := by
  fun_induction opening env bound s with
  | case1 => exact Nat.le_refl _
  | case2 bound s t rest h hk clause more ih =>
      have hle := size_withClause_le env bound rest
      exact Nat.le_trans ih (Nat.le_trans hle (Nat.le_of_lt (size_lt_of_next? h)))
  | case3 bound s t rest h k hk hw type ht => exact Nat.le_of_lt (size_lt_of_next? h)
  | case4 => exact Nat.le_refl _
  | case5 => exact Nat.le_refl _
  | case6 => exact Nat.le_refl _

end SqlTables
