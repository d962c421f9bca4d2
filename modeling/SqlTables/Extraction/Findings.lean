import SqlTables.Name
import SqlTables.TableReference

/-!
# `SqlTables.Extraction.Findings` — what is found in a part of a statement

A part of a statement contributes table references and, through its `WITH` clauses, names of common
tables. Whoever reads the next part hands it the names bound so far, so findings only ever grow by
appending.

## Contents
- **`Findings`** with `∅`, `++` and their laws.
- **`hides`**: whether bound names hide a table.
-/

namespace SqlTables

/-- What is found in a part of a statement, in the order of the text. -/
structure Findings where
  /-- The table references. -/
  references : List TableReference := []
  /-- The names that `WITH` clauses bind to common tables. -/
  bound : List String := []
  deriving DecidableEq

namespace Findings

instance : EmptyCollection Findings := ⟨{}⟩

instance : Append Findings := ⟨fun a b => ⟨a.references ++ b.references, a.bound ++ b.bound⟩⟩

/-- A reference and no name. -/
def ofReference (r : TableReference) : Findings := ⟨[r], []⟩

/-- Names and no reference. -/
def ofNames (names : List String) : Findings := ⟨[], names⟩

@[simp] theorem references_empty : (∅ : Findings).references = [] := rfl

@[simp] theorem bound_empty : (∅ : Findings).bound = [] := rfl

@[simp] theorem references_append (a b : Findings) :
    (a ++ b).references = a.references ++ b.references := rfl

@[simp] theorem bound_append (a b : Findings) : (a ++ b).bound = a.bound ++ b.bound := rfl

/-- Findings are equal if their references and their names are. -/
theorem ext_parts {a b : Findings} (hr : a.references = b.references) (hb : a.bound = b.bound) :
    a = b := by
  cases a
  cases b
  exact congr (congrArg Findings.mk hr) hb

@[simp] theorem empty_append (a : Findings) : ∅ ++ a = a := ext_parts rfl rfl

@[simp] theorem append_empty (a : Findings) : a ++ ∅ = a :=
  ext_parts (List.append_nil _) (List.append_nil _)

theorem append_assoc (a b c : Findings) : a ++ b ++ c = a ++ (b ++ c) :=
  ext_parts (List.append_assoc _ _ _) (List.append_assoc _ _ _)

end Findings

/-- Whether one of the bound names hides an unqualified table of this name. -/
def hides (bound : List String) (table : String) : Bool := bound.any (sameName · table)

theorem hides_append (a b : List String) (table : String) :
    hides (a ++ b) table = (hides a table || hides b table) := List.any_append

end SqlTables
