import SqlTables.StatementType
import SqlTables.TableReference

/-!
# `SqlTables.Summary` — what is known of the statements read so far

A summary starts empty and is filled by reading a statement. Reading another one without a reset appends to
it: references are added at the end, and the first known statement type stays.

## Contents
- **`Summary`** and its look-ups (`reference`, `schemaAt`, `tableAt`, `tables`).
- **Growth**: `detect` and `append`.
- **`display`** and the exchange form.
-/

namespace SqlTables

/-- A statement type and the table references in the order of the text. -/
structure Summary where
  type : StatementType := .unknown
  references : List TableReference := []
  deriving DecidableEq

namespace Summary

/-! ## Look-ups -/

/-- The number of recorded references. -/
def count (s : Summary) : Nat := s.references.length

/-- Whether no reference is recorded. -/
def isEmpty (s : Summary) : Bool := s.references.isEmpty

/-- The reference at an index. -/
def reference (s : Summary) (index : Nat) : Except Error TableReference :=
  match s.references[index]? with
  | some r => .ok r
  | none => .error (.indexOutOfBounds index s.count)

/-- The schema of the reference at an index. -/
def schemaAt (s : Summary) (index : Nat) : Except Error (Option String) :=
  (s.reference index).map TableReference.schema

/-- The table of the reference at an index. -/
def tableAt (s : Summary) (index : Nat) : Except Error String :=
  (s.reference index).map TableReference.table

/-- Schema and table of every reference. -/
def tables (s : Summary) : List (Option String × String) :=
  s.references.map fun r => (r.schema, r.table)

theorem reference_of_lt {s : Summary} {index : Nat} (h : index < s.references.length) :
    s.reference index = .ok s.references[index] := by
  simp [reference, h]

theorem reference_of_le {s : Summary} {index : Nat} (h : s.references.length ≤ index) :
    s.reference index = .error (.indexOutOfBounds index s.count) := by
  simp [reference, h]

/-! ## Growth -/

/-- Takes a statement type over unless one is known already. -/
def detect (s : Summary) (type : StatementType) : Summary := { s with type := s.type.orElse type }

/-- Adds references at the end. -/
def append (s : Summary) (references : List TableReference) : Summary :=
  { s with references := s.references ++ references }

/-- Forgets everything. -/
def reset (_ : Summary) : Summary := {}

/-! ## Text and exchange -/

/-- The type and the references in brackets: `SELECT [orders, shop.items]`. -/
def display (s : Summary) : String :=
  s.type.name ++ " [" ++ ", ".intercalate (s.references.map TableReference.display) ++ "]"

/-- An object of both parts. -/
def toJson (s : Summary) : Json :=
  .obj [("statement_type", s.type.toJson),
    ("references", .arr (s.references.map TableReference.toJson))]

/-- Reads the record of the two parts; both are required. -/
def ofJson? (j : Json) : Option Summary :=
  match j.fields? ["statement_type", "references"] with
  | some [some type, some references] => do
      let type ← StatementType.ofJson? type
      let items ← references.items?
      return { type, references := ← items.mapM TableReference.ofJson? }
  | _ => none

/-- References are read back one by one. -/
theorem mapM_ofJson? (references : List TableReference) :
    (references.map TableReference.toJson).mapM TableReference.ofJson? = some references := by
  induction references with
  | nil => rfl
  | cons r rest ih => simp [TableReference.ofJson?_toJson, ih]

/-- A summary reads back as it was written. -/
theorem ofJson?_toJson (s : Summary) : ofJson? s.toJson = some s := by
  obtain ⟨type, references⟩ := s
  have ht := StatementType.ofJson?_toJson type
  have hr := mapM_ofJson? references
  have hfields : (toJson ⟨type, references⟩).fields? ["statement_type", "references"] =
      some [some type.toJson, some (.arr (references.map TableReference.toJson))] := rfl
  rw [ofJson?, hfields]
  simp only [Json.items?, ht, hr, Option.bind_eq_bind, Option.bind_some]
  rfl

end Summary

end SqlTables
