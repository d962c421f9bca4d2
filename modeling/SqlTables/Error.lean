/-!
# `SqlTables.Error` — what can go wrong

Extraction never fails. Only two requests of a caller can be refused: a look-up past the recorded
references and a text that names no statement type.
-/

namespace SqlTables

/-- Why a request is refused. -/
inductive Error where
  /-- There are only `count` table references. -/
  | indexOutOfBounds (index count : Nat)
  /-- No statement type is written like this. -/
  | unknownStatementType (text : String)
  deriving DecidableEq

/-- The wording of a refusal. -/
def Error.message : Error → String
  | indexOutOfBounds index count =>
      "Index " ++ Nat.repr index ++ " is out of bounds for " ++ Nat.repr count ++
        " table references."
  | unknownStatementType text =>
      "statement type " ++ text ++ " doesn't have the right format"

end SqlTables
