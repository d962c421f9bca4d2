import SqlTables.Proofs.Grammar.Leaves

/-!
# `SqlTables.Proofs.Grammar.Modification` — statements that change data, as trees

The statements that change the rows of tables, over the trees of queries.

```
modification = UPDATE modifier* tables SET parts [WHERE parts]
             | DELETE token* FROM tables [WHERE parts]
             | DELETE FROM tables USING tables [WHERE parts]
             | (INSERT | REPLACE) modifier* name [(names)] source [duplicates]
source       = (VALUES | VALUE | SET) parts | query
duplicates   = ON DUPLICATE KEY UPDATE parts
```

Behind `VALUES` each row is a group. The tokens in front of the `FROM` of a `DELETE` are the names, with their
dots and commas, of the tables that lose rows: they stand in the list behind `FROM` once more. In a `DELETE` no
part is the word `USING`, which starts a list there.

## Contents
- **`Source`**, **`Duplicates`**: the parts of an `INSERT`.
- **`Modification`** with its **`tokens`**, **`tables`** and **`nesting`**.
-/

namespace SqlTables.Grammar

/-! ## Trees -/

/-- The rows of an `INSERT`. -/
inductive Source where
  | clause (word : KeywordToken fun k => k == .VALUES || k == .VALUE || k == .SET)
      (parts : Parts false .clause)
  | query (query : Query false)

/-- What an `INSERT` does about rows that are there already. -/
structure Duplicates where
  on : KeywordToken (· == .ON)
  duplicate : { t : Token // t.isWordOf ["DUPLICATE"] = true }
  key : KeywordToken (· == .KEY)
  update : KeywordToken (· == .UPDATE)
  parts : Parts false .clause

/-- A statement that changes data. Where words may be passed in front of a table, its name is none of
    them. -/
inductive Modification where
  | update (command : KeywordToken (· == .UPDATE)) (modifiers : List (KeywordToken Keyword.isUpdateModifier))
      (tables : Tables false)
      (unmodified : Starts (fun t => t.isKeyword Keyword.isUpdateModifier = false) tables.tokens)
      (set : KeywordToken (· == .SET)) (parts : Parts false .clause) (filter : Filter false)
  | delete (command : KeywordToken (· == .DELETE)) (names : List { t : Token // isInert true t = true })
      (from_ : KeywordToken (· == .FROM)) (tables : Tables true) (filter : Filter true)
  /-- The list behind `USING` starts with no parenthesis, in which names of columns stand. -/
  | deleteUsing (command : KeywordToken (· == .DELETE)) (from_ : KeywordToken (· == .FROM))
      (names : Tables true) (using_ : KeywordToken (· == .USING)) (tables : Tables true)
      (unopened : Starts (· ≠ .sym '(') tables.tokens) (filter : Filter true)
  | insert (isReplace : Bool) (command : KeywordToken (· == if isReplace then .REPLACE else .INSERT))
      (modifiers : List (KeywordToken Keyword.isInsertModifier)) (table : TableName)
      (unmodified : Starts (fun t => t.isKeyword Keyword.isInsertModifier = false) table.tokens)
      (columns : Option Names) (source : Source) (duplicates : Option Duplicates)

/-! ## The tokens of a tree -/

def Source.tokens : Source → List Token
  | .clause word parts => word.1 :: parts.tokens
  | .query q => q.tokens

def Duplicates.tokens (duplicates : Duplicates) : List Token :=
  duplicates.on.1 :: duplicates.duplicate.1 :: duplicates.key.1 :: duplicates.update.1 ::
    duplicates.parts.tokens

def Modification.tokens : Modification → List Token
  | .update command modifiers tables _ set parts filter =>
      command.1 :: (words modifiers ++ (tables.tokens ++ set.1 :: (parts.tokens ++ filter.tokens)))
  | .delete command names from_ tables filter =>
      command.1 :: (names.map Subtype.val ++ from_.1 :: (tables.tokens ++ filter.tokens))
  | .deleteUsing command from_ names using_ tables _ filter =>
      command.1 :: from_.1 :: (names.tokens ++ using_.1 :: (tables.tokens ++ filter.tokens))
  | .insert _ command modifiers table _ columns source duplicates =>
      command.1 :: (words modifiers ++ (table.tokens ++
        (columns.elim [] (fun names => enclose names.tokens) ++
          (source.tokens ++ duplicates.elim [] Duplicates.tokens))))

/-! ## The tables of a tree -/

def Source.tables (lower : Bool) : Source → List TableReference
  | .clause _ parts => parts.tables lower
  | .query q => q.tables lower

def Duplicates.tables (lower : Bool) (duplicates : Duplicates) : List TableReference :=
  duplicates.parts.tables lower

/-- The tables of a statement in the order of the text. The names in front of the `FROM` of a `DELETE` do
    not count. -/
def Modification.tables (lower : Bool) : Modification → List TableReference
  | .update _ _ tables _ _ parts filter =>
      tables.tables lower ++ (parts.tables lower ++ filter.tables lower)
  | .delete _ _ _ tables filter => tables.tables lower ++ filter.tables lower
  | .deleteUsing _ _ names _ tables _ filter =>
      names.tables lower ++ (tables.tables lower ++ filter.tables lower)
  | .insert _ _ _ table _ _ source duplicates =>
      table.reference lower ::
        (source.tables lower ++ duplicates.elim [] (Duplicates.tables lower))

def Modification.type : Modification → StatementType
  | .update .. => .update
  | .delete .. => .delete
  | .deleteUsing .. => .delete
  | .insert isReplace .. => if isReplace then .replace else .insert

/-! ## Nesting -/

def Source.nesting : Source → Nat
  | .clause _ parts => parts.nesting
  | .query q => q.nesting

/-- How deep the parentheses of a statement are nested, but for those around names. -/
def Modification.nesting : Modification → Nat
  | .update _ _ tables _ _ parts filter => max tables.nesting (max parts.nesting filter.nesting)
  | .delete _ _ _ tables filter => max tables.nesting filter.nesting
  | .deleteUsing _ _ names _ tables _ filter =>
      max names.nesting (max tables.nesting filter.nesting)
  | .insert _ _ _ _ _ _ source duplicates =>
      max source.nesting (duplicates.elim 0 fun duplicates => duplicates.parts.nesting)

end SqlTables.Grammar
