import SqlTables.Extraction.Findings
import SqlTables.Token.Source

/-!
# `SqlTables.Extraction.Env` — what every reading routine is given

The routines that read one level of a statement do not know how deep it lies. They are given a search
for the spans inside parentheses, which finds nothing once the nesting is too deep.

## Contents
- **`Place`**: what a parenthesis may hold where it stands.
- **`Env`**: the settings and the search of spans.
- **`Env.record`**: the reference that a qualified name makes, unless it names a common table.
-/

namespace SqlTables

/-- What a parenthesised span that is no query holds where it stands. -/
inductive Place where
  /-- A list of tables and joins. -/
  | tableList
  /-- Expressions, column names or arguments. -/
  | expression
  deriving DecidableEq

/-- What reading one level of a statement depends on. -/
structure Env (σ : Type) where
  /-- Whether names are recorded in lower case. -/
  lower : Bool
  /-- Whether `USING` may start a table list, as it does in a `DELETE`. -/
  usingTables : Bool
  /-- What is found inside a parenthesised span, given the names bound so far. -/
  search : Place → List String → σ → Findings

/-- A name with the name in front of its last dot. -/
structure QualifiedName where
  schema : Option Token
  table : Token
  deriving DecidableEq

/-- What a qualified name contributes where the names `bound` are common tables. Only a name without
    a schema can be one of them. -/
def Env.record {σ : Type} (env : Env σ) (bound : List String) (name : QualifiedName) : Findings :=
  let table := name.table.name env.lower
  let schema := name.schema.map (Token.name env.lower)
  if schema.isNone && hides bound table then ∅ else .ofReference ⟨schema, table⟩

/-- To record a name binds none. -/
theorem Env.bound_record {σ : Type} (env : Env σ) (bound : List String) (name : QualifiedName) :
    (env.record bound name).bound = [] := by
  unfold Env.record
  simp only
  split
  · rfl
  · rfl

end SqlTables
