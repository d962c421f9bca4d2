import SqlTables.Extraction.Env

/-!
# `SqlTables.Extraction.QualifiedName` — names of tables

A table is written as `name`, `schema.name` or `catalog.schema.name`; of a longer chain the last two
parts count.

## Contents
- **`qualifiedName?`**: the longest chain of identifiers and dots that comes next.
- **`tableName?`**: the same as a recorded table.
-/

namespace SqlTables

open TokenSource

variable {σ : Type} [TokenSource σ]

/-- A dot and an identifier. -/
def dottedPart? (s : σ) : Option (Token × σ) := do
  let (part, rest) ← next? (← acceptSym? '.' s)
  if part.isIdentifier then some (part, rest) else none

/-- A further part of a name takes a dot and an identifier. -/
theorem size_lt_of_dottedPart? {s rest : σ} {part : Token} (h : dottedPart? s = some (part, rest)) :
    size rest < size s := by
  simp only [dottedPart?, Option.bind_eq_bind, Option.bind_eq_some_iff] at h
  obtain ⟨mid, hd, ⟨t, r⟩, hn, hi⟩ := h
  simp only at hi
  split at hi
  · cases hi
    exact Nat.lt_trans (size_lt_of_next? hn) (size_lt_of_accept? hd)
  · cases hi

/-- Reads further parts of a name; the part before the last one becomes the schema. -/
def furtherParts (name : QualifiedName) (s : σ) : QualifiedName × σ :=
  match _h : dottedPart? s with
  | some (part, rest) => furtherParts ⟨some name.table, part⟩ rest
  | none => (name, s)
termination_by size s
decreasing_by exact size_lt_of_dottedPart? ‹_›

/-- The further parts of a name, one at a time. -/
theorem furtherParts_eq (name : QualifiedName) (s : σ) :
    furtherParts name s = match dottedPart? s with
      | some (part, rest) => furtherParts ⟨some name.table, part⟩ rest
      | none => (name, s) := by
  rw [furtherParts]
  split <;> next h => rw [h]

theorem size_furtherParts_le (name : QualifiedName) (s : σ) :
    size (furtherParts name s).2 ≤ size s := by
  fun_induction furtherParts name s with
  | case1 name s part rest h ih => exact Nat.le_trans ih (Nat.le_of_lt (size_lt_of_dottedPart? h))
  | case2 name s h => exact Nat.le_refl _

/-- Whether a token can be the first part of the name of a table. -/
def startsName (t : Token) : Bool := t.isIdentifier && !t.isKeyword Keyword.endsTableList

/-- The qualified name that comes next. A word that closes a table list starts none. -/
def qualifiedName? (s : σ) : Option (QualifiedName × σ) :=
  match next? s with
  | some (t, rest) => if startsName t then some (furtherParts ⟨none, t⟩ rest) else none
  | none => none

/-- A name takes at least one token. -/
theorem size_lt_of_qualifiedName? {s rest : σ} {name : QualifiedName}
    (h : qualifiedName? s = some (name, rest)) : size rest < size s := by
  unfold qualifiedName? at h
  split at h
  · next t r hn =>
      split at h
      · have hf := size_furtherParts_le ⟨none, t⟩ r
        rw [Option.some.inj h] at hf
        exact Nat.lt_of_le_of_lt hf (size_lt_of_next? hn)
      · cases h
  · cases h

/-- Passes over the name that comes next, if one does. -/
def skipName (s : σ) : σ :=
  match qualifiedName? s with
  | some (_, rest) => rest
  | none => s

theorem size_skipName_le (s : σ) : size (skipName s) ≤ size s := by
  unfold skipName
  split
  · next h => exact Nat.le_of_lt (size_lt_of_qualifiedName? h)
  · exact Nat.le_refl _

/-- The table that comes next. A common table is a name too, although it is not recorded. -/
def tableName? (env : Env σ) (bound : List String) (s : σ) : Option (Findings × σ) :=
  (qualifiedName? s).map fun (name, rest) => (env.record bound name, rest)

/-- The name of a table takes at least one token. -/
theorem size_lt_of_tableName? {env : Env σ} {bound : List String} {s rest : σ} {found : Findings}
    (h : tableName? env bound s = some (found, rest)) : size rest < size s := by
  simp only [tableName?, Option.map_eq_some_iff] at h
  obtain ⟨⟨name, r⟩, hq, he⟩ := h
  cases he
  exact size_lt_of_qualifiedName? hq

/-- The table that comes next, or nothing. -/
def tableName (env : Env σ) (bound : List String) (s : σ) : Findings × σ :=
  (tableName? env bound s).getD (∅, s)

theorem size_tableName_le (env : Env σ) (bound : List String) (s : σ) :
    size (tableName env bound s).2 ≤ size s := by
  unfold tableName
  cases h : tableName? env bound s with
  | none => exact Nat.le_refl _
  | some found => exact Nat.le_of_lt (size_lt_of_tableName? h)

end SqlTables
