import SqlTables.Extraction.Body
import SqlTables.Options
import SqlTables.Summary

/-!
# `SqlTables.Extraction` — the tables of a statement

## Contents
- **`Env.nested`**: reading with a bounded depth of parentheses. The depth that is left bounds the
  recursion into spans, so every limit, however large, is allowed.
- **`extract`**: statement type and references of a statement.
- **`Summary.read`**, **`parse`** and **`parseText`**: the same as an addition to a summary and on its
  own.
-/

namespace SqlTables

variable {σ : Type} [TokenSource σ]

/-! ## Nesting -/

/-- Reading with `depth` levels of parentheses left to search. -/
def Env.nested (lower usingTables : Bool) : (depth : Nat) → Env σ
  | 0 => { lower, usingTables, search := fun _ _ _ => ∅ }
  | depth + 1 =>
      { lower, usingTables
        search := fun place bound s => span (Env.nested lower usingTables depth) place bound s }

theorem lower_nested (lower usingTables : Bool) (depth : Nat) :
    (Env.nested lower usingTables depth : Env σ).lower = lower := by
  cases depth <;> rfl

theorem usingTables_nested (lower usingTables : Bool) (depth : Nat) :
    (Env.nested lower usingTables depth : Env σ).usingTables = usingTables := by
  cases depth <;> rfl

/-- One level of nesting more: spans are searched with the level below. -/
theorem nested_succ (lower usingTables : Bool) (depth : Nat) :
    Env.nested (σ := σ) lower usingTables (depth + 1) =
      { (Env.nested lower usingTables depth : Env σ) with
        search := fun place bound s => span (Env.nested lower usingTables depth) place bound s } := by
  cases depth <;> rfl

/-! ## Whole statements -/

/-- The statement type and the references of a statement, where `held` is the type known before. A
    known type stays. What a `WITH` clause in front holds is read under the type known before. -/
def extract (options : Options) (held : StatementType) (s : σ) :
    StatementType × List TableReference :=
  let env (type : StatementType) : Env σ :=
    .nested options.lowerCaseNames (type == .delete) options.maxDepth
  let start := opening (env held) [] s
  let known := held.orElse start.type
  let rest := afterOpening (env known) true start.found.bound start.type start.rest
  (known, (start.found ++ rest).references)

/-- Reads a statement into a summary. -/
def Summary.read (summary : Summary) (options : Options) (text : Bytes) : Summary :=
  let found := extract options summary.type text
  { type := found.1, references := summary.references ++ found.2 }

/-- The summary of one statement. -/
def parse (options : Options) (text : Bytes) : Summary := Summary.read {} options text

/-- The summary of one statement given as text, read in the default way. -/
def parseText (text : String) : Summary := parse {} (utf8 text)

end SqlTables
