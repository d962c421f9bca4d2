import SqlTables.Error
import SqlTables.Json

/-!
# `SqlTables.StatementType` — the command category of a statement

## Contents
- **`StatementType`** and the word that each one is written as (`name`, `ofName?`, `parse`).
- **Categories**: `isReadOnly`, `isDdl`.
- **Exchange**: `toJson`, `ofJson?`.
-/

namespace SqlTables

/-- The command that a statement starts with. -/
inductive StatementType where
  | select
  | insert
  | update
  | delete
  | replace
  | alter
  | drop
  | create
  | truncate
  /-- The leading word is missing or is no command. -/
  | unknown
  deriving DecidableEq

namespace StatementType

/-- Every statement type. -/
def all : List StatementType :=
  [select, insert, update, delete, replace, alter, drop, create, truncate, unknown]

theorem mem_all (type : StatementType) : type ∈ all := by cases type <;> decide

/-! ## Names -/

/-- The command as it is written in upper case. -/
def name : StatementType → String
  | select => "SELECT"
  | insert => "INSERT"
  | update => "UPDATE"
  | delete => "DELETE"
  | replace => "REPLACE"
  | alter => "ALTER"
  | drop => "DROP"
  | create => "CREATE"
  | truncate => "TRUNCATE"
  | unknown => "UNKNOWN"

/-- The statement type of an upper-case name. -/
def ofName? (text : String) : Option StatementType := all.find? (·.name == text)

/-- The statement type that a text names, in whatever case its ASCII letters are. -/
def parse (text : String) : Except Error StatementType :=
  match ofName? (text.map Char.toUpper) with
  | some type => .ok type
  | none => .error (.unknownStatementType text)

theorem ofName?_name (type : StatementType) : ofName? type.name = some type := by
  cases type <;> decide

theorem name_of_ofName? {text : String} {type : StatementType} (h : ofName? text = some type) :
    type.name = text := by
  simpa using List.find?_some h

/-! ## Categories -/

/-- Whether the statement can change neither data nor schema. -/
def isReadOnly : StatementType → Bool
  | select => true
  | _ => false

/-- Whether the statement changes the schema. -/
def isDdl : StatementType → Bool
  | alter | drop | create | truncate => true
  | _ => false

/-- The type itself if it is known, the other one otherwise. -/
def orElse : StatementType → StatementType → StatementType
  | unknown, other => other
  | type, _ => type

theorem orElse_of_ne_unknown {type other : StatementType} (h : type ≠ unknown) :
    type.orElse other = type := by
  cases type <;> simp_all [orElse]

/-! ## Exchange -/

/-- The upper-case name. -/
def toJson (type : StatementType) : Json := .str type.name

/-- Reads an upper-case name, alone or as the only member of an object and without a payload. -/
def ofJson? : Json → Option StatementType
  | .str text => ofName? text
  | .obj [(text, .null)] => ofName? text
  | _ => none

theorem ofJson?_toJson (type : StatementType) : ofJson? type.toJson = some type :=
  ofName?_name type

end StatementType

end SqlTables
