import SqlTables.Json

/-!
# `SqlTables.Options` — how a statement is read

## Contents
- **`Options`** and its defaults.
- **`Options.Builder`**: options put together one setting at a time.
- **Exchange**: `toJson`, `ofJson?`.
-/

namespace SqlTables

/-- How a statement is read. -/
structure Options where
  /-- The deepest nesting of parentheses that is searched for tables; spans nested deeper are
      skipped. -/
  maxDepth : Nat := 128
  /-- Whether the names of schemas and tables are recorded in lower case. -/
  lowerCaseNames : Bool := false
  deriving DecidableEq

namespace Options

/-! ## Builder -/

/-- Settings collected so far; what is not set keeps its default. -/
structure Builder where
  maxDepth : Option Nat := none
  lowerCaseNames : Option Bool := none

namespace Builder

/-- Sets the deepest nesting. -/
def withMaxDepth (b : Builder) (depth : Nat) : Builder := { b with maxDepth := some depth }

/-- Sets whether names are recorded in lower case. -/
def withLowerCaseNames (b : Builder) (lower : Bool) : Builder :=
  { b with lowerCaseNames := some lower }

/-- The options with the settings collected so far. -/
def build (b : Builder) : Options :=
  let defaults : Options := {}
  { maxDepth := b.maxDepth.getD defaults.maxDepth
    lowerCaseNames := b.lowerCaseNames.getD defaults.lowerCaseNames }

theorem build_empty : ({} : Builder).build = {} := rfl

end Builder

/-! ## Exchange -/

/-- An object of both settings. -/
def toJson (o : Options) : Json :=
  .obj [("max_depth", .int o.maxDepth), ("lower_case_table_names", .bool o.lowerCaseNames)]

/-- Reads a field that may be left out, but not null. -/
def settingOfJson? {α : Type} (read : Json → Option α) : Option Json → Option (Option α)
  | none => some none
  | some j => (read j).map some

/-- Reads the record of the two settings; each may be left out. -/
def ofJson? (j : Json) : Option Options :=
  match j.fields? ["max_depth", "lower_case_table_names"] with
  | some [depth, lower] => do
      let depth ← settingOfJson? Json.nat? depth
      let lower ← settingOfJson? Json.bool? lower
      return Builder.build ⟨depth, lower⟩
  | _ => none

/-- Options are read back from the JSON that they are written as, where the limit fits in 64 bits. -/
theorem ofJson?_toJson {o : Options} (h : o.maxDepth < UInt64.size) :
    ofJson? o.toJson = some o := by
  obtain ⟨depth, lower⟩ := o
  have hd : Json.nat? (.int (depth : Nat)) = some depth := if_pos h
  have hfields : (toJson ⟨depth, lower⟩).fields? ["max_depth", "lower_case_table_names"] =
      some [some (.int depth), some (.bool lower)] := rfl
  rw [ofJson?, hfields]
  simp [settingOfJson?, hd, Json.bool?, Builder.build]

end Options

end SqlTables
