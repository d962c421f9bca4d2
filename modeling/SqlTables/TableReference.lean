import SqlTables.Json

/-!
# `SqlTables.TableReference` — one occurrence of a table in a statement
-/

namespace SqlTables

/-- One occurrence of a table. Names are kept without their quotes. -/
structure TableReference where
  /-- The schema, present only if the statement writes one. -/
  schema : Option String
  /-- The name of the table or view. -/
  table : String
  deriving DecidableEq

namespace TableReference

/-- The reference as text: `schema.table`, or the table alone. -/
def display (r : TableReference) : String :=
  match r.schema with
  | some schema => schema ++ "." ++ r.table
  | none => r.table

/-- An object of the names; an absent schema is left out. -/
def toJson (r : TableReference) : Json :=
  match r.schema with
  | some schema => .obj [("schema", .str schema), ("table", .str r.table)]
  | none => .obj [("table", .str r.table)]

/-- A schema may be left out or null. -/
def schemaOfJson? : Option Json → Option (Option String)
  | none => some none
  | some .null => some none
  | some j => j.str?.map some

/-- Reads the record of the two names; the table is required. -/
def ofJson? (j : Json) : Option TableReference :=
  match j.fields? ["schema", "table"] with
  | some [schema, some table] => do
      return { schema := ← schemaOfJson? schema, table := ← table.str? }
  | _ => none

theorem ofJson?_toJson (r : TableReference) : ofJson? r.toJson = some r := by
  obtain ⟨schema, table⟩ := r
  cases schema <;> rfl

end TableReference

end SqlTables
