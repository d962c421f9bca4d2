import SqlTables.Proofs.Grammar.Leaves

/-!
# `SqlTables.Proofs.Grammar.SchemaChange` — schema changes, as trees

The statements that change tables and views, and what is attached to tables, up to the last name that
counts.

```
change = (ALTER | DROP | CREATE | TRUNCATE) front target
front  = (filler | option)*
option = word [= value (@ host)* [(tokens)]]
target = name (, name)*
       | (INDEX | TRIGGER) filler* name token* ON name
```

No option stands behind `TABLE`, `VIEW` or `TRUNCATE`, where the word of an option is a name. Values and
hosts are single tokens of any kind, among them words that mean something elsewhere.

## Contents
- **`Front`**: what stands in front of the kind or the name of an object, with **`OptionValue`**.
- **`ObjectName`**, of which any name in grave accents is one, and **`Target`**.
- **`SchemaChange`** with its **`tokens`** and **`tables`**.
-/

namespace SqlTables.Grammar

/-! ## What stands in front of an object -/

/-- The value of an option, such as `= 'user'@'host'` or `= CURRENT_USER()`. -/
structure OptionValue where
  value : Token
  hosts : List Token
  arguments : Option { ts : List Token // Balanced ts }

/-- Fillers and options. Once the kind of the object is known no option follows. -/
inductive Front : Bool → Type where
  | nil {kindKnown : Bool} : Front kindKnown
  | filler {kindKnown : Bool} (word : KeywordToken Keyword.isDdlFiller)
      (rest : Front (kindKnown || word.1.isKeyword fun k => k == .TABLE || k == .VIEW)) :
      Front kindKnown
  | option (word : { t : Token // t.isWordOf ddlOptions = true }) (value : Option OptionValue)
      (rest : Front false) : Front false

/-! ## What is changed -/

/-- Whether a token may mean something else than a name in front of an object. -/
def isObjectWord (t : Token) : Bool :=
  t.keyword?.isSome || t.isWordOf otherObjects || t.isWordOf ddlOptions

/-- The name of an object with or without a schema, quoted or of words that mean nothing else. -/
def ObjectName : Type := { name : TableName // ∀ t ∈ name.tokens, isObjectWord t = false }

theorem nameStart_quoted (content : Bytes) : startsName (.quoted .backtick content) = true ∧
    (Token.quoted .backtick content).isKeyword (fun k => k == .DUAL || k == .WITH) = false :=
  ⟨rfl, rfl⟩

/-- A name in grave accents with or without a schema, whatever they hold. -/
def ObjectName.quoted (schema : Option Bytes) (table : Bytes) : ObjectName :=
  match schema with
  | none => ⟨.plain ⟨.quoted .backtick table, nameStart_quoted table⟩, List.forall_mem_singleton.mpr rfl⟩
  | some schema =>
      ⟨.qualified ⟨.quoted .backtick schema, nameStart_quoted schema⟩ ⟨.quoted .backtick table, rfl⟩,
        List.forall_mem_cons.mpr ⟨rfl, List.forall_mem_cons.mpr ⟨rfl,
          List.forall_mem_singleton.mpr rfl⟩⟩⟩

/-- The objects of a schema change. -/
inductive Target where
  | named (first : ObjectName) (others : List ObjectName)
  /-- An index or trigger of the table behind `ON`. -/
  | attached (kind : KeywordToken Keyword.isAttachedObject)
      (fillers : List (KeywordToken Keyword.isDdlFiller)) (name : ObjectName) (between : List Token)
      (passed : ∀ t ∈ between, t ≠ .sym ';' ∧ t.isKeyword (· == .ON) = false)
      (undotted : Starts (· ≠ .sym '.') between) (on : KeywordToken (· == .ON)) (table : ObjectName)

/-- A schema change. -/
structure SchemaChange where
  type : StatementType
  isDdl : type.isDdl = true
  command : KeywordToken (·.statementType? == some type)
  front : Front (type == .truncate)
  target : Target

/-! ## The tokens of a tree -/

def OptionValue.tokens (v : OptionValue) : List Token :=
  .sym '=' :: v.value :: (v.hosts.flatMap (fun host => [.sym '@', host]) ++
    v.arguments.elim [] fun ts => enclose ts.1)

def Front.tokens : {kindKnown : Bool} → Front kindKnown → List Token
  | _, .nil => []
  | _, .filler word rest => word.1 :: rest.tokens
  | _, .option word value rest => word.1 :: (value.elim [] OptionValue.tokens ++ rest.tokens)

def ObjectName.tokens (name : ObjectName) : List Token := name.1.tokens

/-- Names with a comma in front of each. -/
def listTokens (names : List ObjectName) : List Token :=
  names.flatMap fun name => .sym ',' :: name.tokens

def Target.tokens : Target → List Token
  | named first others => first.tokens ++ listTokens others
  | attached kind fillers name between _ _ on table =>
      kind.1 :: (words fillers ++ (name.tokens ++ (between ++ on.1 :: table.tokens)))

def SchemaChange.tokens (change : SchemaChange) : List Token :=
  change.command.1 :: (change.front.tokens ++ change.target.tokens)

/-! ## The tables of a tree -/

def ObjectName.reference (lower : Bool) (name : ObjectName) : TableReference :=
  name.1.reference lower

/-- The tables of a schema change. Only a `DROP` has more than one. -/
def SchemaChange.tables (lower : Bool) (change : SchemaChange) : List TableReference :=
  match change.target with
  | .named first others =>
      if change.type = .drop then (first :: others).map (ObjectName.reference lower)
      else [first.reference lower]
  | .attached _ _ _ _ _ _ _ table => [table.reference lower]

end SqlTables.Grammar
