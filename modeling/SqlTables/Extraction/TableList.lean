import SqlTables.Extraction.QualifiedName

/-!
# `SqlTables.Extraction.TableList` — lists of tables and joins

After `FROM` and `JOIN` tables are listed, each with an alias and index hints, until something comes
that neither separates nor joins.

## Contents
- **What may follow a table**: `skipAlias`, `skipPartition`, `skipIndexHints`.
- **`nextTable?`**: a comma or a join.
- **`tableItem?`** and **`tableList`**.
-/

namespace SqlTables

open TokenSource

variable {σ : Type} [TokenSource σ]

/-! ## What may follow a table -/

/-- Whether a token can be an alias after `AS`. A text in any quotes can, a clause word cannot. -/
def isAlias : Token → Bool
  | .quoted _ _ => true
  | t => startsName t

/-- Passes over `AS` and an alias, or over an alias that is no keyword. -/
def skipAlias (s : σ) : σ :=
  match next? s with
  | some (t, rest) =>
      match t.keyword? with
      | some .AS => skip isAlias rest
      | some _ => s
      | none => if t.isIdentifier then rest else s
  | none => s

/-- Behind an alias no more is left than was there. -/
theorem size_skipAlias_le (s : σ) : size (skipAlias s) ≤ size s := by
  unfold skipAlias
  split
  · next t rest hn =>
      have hlt := size_lt_of_next? hn
      split
      · have := size_skip_le isAlias rest
        omega
      · exact Nat.le_refl _
      · split
        · exact Nat.le_of_lt hlt
        · exact Nat.le_refl _
  · exact Nat.le_refl _

/-- Passes over `PARTITION` and its list. -/
def skipPartition (s : σ) : σ :=
  match acceptKeyword? (· == .PARTITION) s with
  | some rest => skipSpan rest
  | none => s

theorem size_skipPartition_le (s : σ) : size (skipPartition s) ≤ size s := by
  unfold skipPartition
  split
  · next rest h => exact Nat.le_trans (size_skipSpan_le rest) (Nat.le_of_lt (size_lt_of_accept? h))
  · exact Nat.le_refl _

/-- Passes over the purpose of an index hint: `FOR JOIN`, `FOR ORDER BY` or `FOR GROUP BY`. -/
def skipHintPurpose (s : σ) : σ :=
  match acceptKeyword? (· == .FOR) s with
  | some rest =>
      match acceptKeyword? (fun k => k == .ORDER || k == .GROUP) rest with
      | some rest => advance rest
      | none => advance rest
  | none => s

/-- Behind what an index hint is for no more is left than was there. -/
theorem size_skipHintPurpose_le (s : σ) : size (skipHintPurpose s) ≤ size s := by
  unfold skipHintPurpose
  split
  · next rest h =>
      have hlt := size_lt_of_accept? h
      split
      · next last hl =>
          have := size_lt_of_accept? hl
          have := size_advance_le last
          omega
      · have := size_advance_le rest
        omega
  · exact Nat.le_refl _

/-- What follows an index hint, if one comes next. -/
def indexHint? (s : σ) : Option σ := do
  let rest ← acceptKeyword? (fun k => k == .USE || k == .FORCE || k == .IGNORE) s
  let rest ← acceptKeyword? (fun k => k == .INDEX || k == .KEY) rest
  some (skipSpan (skipHintPurpose rest))

/-- An index hint takes at least its first two words. -/
theorem size_lt_of_indexHint? {s rest : σ} (h : indexHint? s = some rest) : size rest < size s := by
  simp only [indexHint?, Option.bind_eq_bind, Option.bind_eq_some_iff, Option.some.injEq] at h
  obtain ⟨a, ha, b, hb, rfl⟩ := h
  have h1 := size_lt_of_accept? ha
  have h2 := size_lt_of_accept? hb
  have h3 := size_skipHintPurpose_le b
  have h4 := size_skipSpan_le (skipHintPurpose b)
  omega

/-- Passes over all index hints. -/
def skipIndexHints (s : σ) : σ :=
  match _h : indexHint? s with
  | some rest => skipIndexHints rest
  | none => s
termination_by size s
decreasing_by exact size_lt_of_indexHint? ‹_›

/-- Index hints, one at a time. -/
theorem skipIndexHints_eq (s : σ) :
    skipIndexHints s = match indexHint? s with
      | some rest => skipIndexHints rest
      | none => s := by
  rw [skipIndexHints]
  split <;> next h => rw [h]

theorem size_skipIndexHints_le (s : σ) : size (skipIndexHints s) ≤ size s := by
  fun_induction skipIndexHints s with
  | case1 s rest h ih => exact Nat.le_trans ih (Nat.le_of_lt (size_lt_of_indexHint? h))
  | case2 s h => exact Nat.le_refl _

/-! ## Lists -/

/-- What follows a comma or a join, if another table is announced. -/
def nextTable? (s : σ) : Option σ :=
  match acceptSym? ',' s with
  | some rest => some rest
  | none => acceptKeyword? Keyword.isJoin (skipKeywords Keyword.isJoinModifier s)

/-- A comma or a join takes at least one token, so every turn of a list comes closer to its end. -/
theorem size_lt_of_nextTable? {s rest : σ} (h : nextTable? s = some rest) : size rest < size s := by
  unfold nextTable? at h
  split at h
  · next r hc =>
      cases h
      exact size_lt_of_accept? hc
  · exact Nat.lt_of_lt_of_le (size_lt_of_accept? h) (size_skipKeywords_le _ s)

/-- One item of a list: a query or a list in parentheses, `DUAL`, which is no table, or a table. -/
def tableItem? (env : Env σ) (bound : List String) (s : σ) : Option (Findings × σ) :=
  match acceptSym? '(' s with
  | some inside =>
      some (env.search .tableList bound (enclosed inside).1,
        skipIndexHints (skipSpan (skipAlias (enclosed inside).2)))
  | none =>
      match acceptKeyword? (· == .DUAL) s with
      | some rest => some (∅, skipIndexHints (skipAlias rest))
      | none =>
          match tableName? env bound s with
          | some (found, rest) => some (found, skipIndexHints (skipAlias (skipPartition rest)))
          | none => none

/-- An item of a list takes at least one token, whatever may follow it. -/
theorem size_lt_of_tableItem? {env : Env σ} {bound : List String} {s rest : σ} {found : Findings}
    (h : tableItem? env bound s = some (found, rest)) : size rest < size s := by
  unfold tableItem? at h
  split at h
  · next inside hi =>
      cases h
      have h1 := size_lt_of_accept? hi
      have h2 := size_afterSpan_le inside
      have h3 := size_skipAlias_le (enclosed inside).2
      have h4 := size_skipSpan_le (skipAlias (enclosed inside).2)
      have h5 := size_skipIndexHints_le (skipSpan (skipAlias (enclosed inside).2))
      omega
  · split at h
    · next r hd =>
        cases h
        have h1 := size_lt_of_accept? hd
        have h2 := size_skipAlias_le r
        have h3 := size_skipIndexHints_le (skipAlias r)
        omega
    · split at h
      · next f r ht =>
          cases h
          have h1 := size_lt_of_tableName? ht
          have h2 := size_skipPartition_le r
          have h3 := size_skipAlias_le (skipPartition r)
          have h4 := size_skipIndexHints_le (skipAlias (skipPartition r))
          omega
      · cases h

/-- The items of a list from here on. The list ends where an item is missing or no other is
    announced. -/
def tableList (env : Env σ) (bound : List String) (s : σ) : Findings × σ :=
  match _h : tableItem? env bound s with
  | none => (∅, s)
  | some (found, rest) =>
      match _hn : nextTable? rest with
      | none => (found, rest)
      | some next =>
          let more := tableList env (bound ++ found.bound) next
          (found ++ more.1, more.2)
termination_by size s
decreasing_by
  exact Nat.lt_trans (size_lt_of_nextTable? ‹_›) (size_lt_of_tableItem? ‹_›)

/-- A list of tables, one item at a time. -/
theorem tableList_eq (env : Env σ) (bound : List String) (s : σ) :
    tableList env bound s = match tableItem? env bound s with
      | none => (∅, s)
      | some (found, rest) =>
          match nextTable? rest with
          | none => (found, rest)
          | some next =>
              let more := tableList env (bound ++ found.bound) next
              (found ++ more.1, more.2) := by
  rw [tableList]
  split
  · next h => rw [h]
  · next h =>
      rw [h]
      simp only
      split <;> next hn => rw [hn]

/-- Behind a list no more is left than was there. -/
theorem size_tableList_le (env : Env σ) (bound : List String) (s : σ) :
    size (tableList env bound s).2 ≤ size s := by
  fun_induction tableList env bound s with
  | case1 => exact Nat.le_refl _
  | case2 bound s found rest h hn => exact Nat.le_of_lt (size_lt_of_tableItem? h)
  | case3 bound s found rest h next hn more ih =>
      have h1 := size_lt_of_tableItem? h
      have h2 := size_lt_of_nextTable? hn
      exact Nat.le_trans ih (by omega)

end SqlTables
