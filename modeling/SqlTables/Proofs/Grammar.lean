import SqlTables.Extraction

/-!
# `SqlTables.Proofs.Grammar` — queries as trees

A grammar of `SELECT` queries, as trees whose leaves are the tokens of the text. A tree can only be built
from tokens that may stand at their place, so every tree is a query and none needs a side condition.

```
query  = select (UNION [ALL | DISTINCT] select)*
select = SELECT modifier* parts FROM tables [WHERE parts]
tables = item [cond] (separator item [cond])*         a `,` only behind an item without a condition
cond   = ON parts | USING (names)                     the parts of an ON without a `,` of their own
item   = name [PARTITION (names)] [alias] hint* | DUAL | (query) [alias [(names)]] | (tables)
parts  = (token | (query) | (group))*
```

A group is any sequence of tokens and parentheses that does not start like a query. The parts of a clause
hold no word that would start something of its own there.

## Contents
- **Leaves**: `KeywordToken`, names, aliases, hints, separators.
- **`Slot`**: what plain tokens may stand in a sequence of parts.
- **`Query`** and the trees inside it.
- **`tokens`**, **`tables`** and **`nesting`** of all trees.
-/

namespace SqlTables.Grammar

/-! ## Leaves -/

/-- A word that is a keyword of a class, in letters of any case. -/
def KeywordToken (p : Keyword → Bool) : Type := { t : Token // t.isKeyword p = true }

/-- A token that a name may start with where a table is expected: a quoted name or a word that neither
    closes a table list nor means something else there. -/
def NameStart : Type :=
  { t : Token // startsName t = true ∧ t.isKeyword (fun k => k == .DUAL || k == .WITH) = false }

/-- Any quoted name or word. Behind a dot every word is a name. -/
def Identifier : Type := { t : Token // t.isIdentifier = true }

/-- The name of a table with or without a schema. -/
inductive TableName where
  | plain (table : NameStart)
  | qualified (schema : NameStart) (table : Identifier)

/-- A name in a list of names in parentheses, where a word that starts a query is none. -/
def ListedName : Type :=
  { t : Token // t.isIdentifier = true ∧ t.isKeyword Keyword.startsQuery = false }

/-- Names with commas between them. -/
structure Names where
  first : ListedName
  others : List ListedName

/-- An alias that is no keyword, or `AS` and an alias. -/
inductive Alias where
  | plain (name : { t : Token // t.isIdentifier = true ∧ t.keyword? = none })
  | behindAs (as : KeywordToken (· == .AS)) (name : { t : Token // isAlias t = true })

/-- What an index hint is for. -/
inductive Purpose where
  | join (purpose : KeywordToken (· == .FOR)) (join : KeywordToken (· == .JOIN))
  | sorting (purpose : KeywordToken (· == .FOR))
      (sorting : KeywordToken fun k => k == .ORDER || k == .GROUP) (by_ : KeywordToken (· == .BY))

/-- An index hint. -/
structure Hint where
  action : KeywordToken fun k => k == .USE || k == .FORCE || k == .IGNORE
  index : KeywordToken fun k => k == .INDEX || k == .KEY
  purpose : Option Purpose
  names : Names

/-- The words of a join. -/
structure Join where
  modifiers : List (KeywordToken Keyword.isJoinModifier)
  join : KeywordToken Keyword.isJoin

/-- What stands between two tables of a list. -/
inductive Separator where
  | comma
  | join (join : Join)

/-! ## Plain tokens -/

/-- Tokens other than parentheses and `;`. -/
def isPlain (t : Token) : Bool := !(t == .sym '(' || t == .sym ')' || t == .sym ';')

/-- Plain tokens that start nothing of their own in a clause. Where `USING` starts a table list, it is
    none of them. -/
def isInert (usingTables : Bool) (t : Token) : Bool :=
  isPlain t &&
    !t.isKeyword fun k => k == .SELECT || k == .FROM || k.isJoin || k == .USING && usingTables

/-- Where a sequence of parts stands. -/
inductive Slot where
  /-- In a clause. -/
  | clause
  /-- In the condition of a join, whose commas separate tables. -/
  | condition
  /-- At the start of a group. -/
  | group
  /-- In a group behind its start. -/
  | inGroup
  deriving DecidableEq

/-- The plain tokens that may come next. -/
def Slot.allows (usingTables : Bool) : Slot → Token → Bool
  | clause, t => isInert usingTables t
  | condition, t => isInert usingTables t && !t == .sym ','
  | group, t => isPlain t && !t.isKeyword Keyword.startsQuery
  | inGroup, t => isPlain t

/-- Where the parts behind the next one stand. -/
def Slot.tail : Slot → Slot
  | group => inGroup
  | slot => slot

/-! ## Trees -/

mutual

/-- Selections united. -/
inductive Query (usingTables : Bool) : Type where
  | select (select : Select usingTables)
  | union (select : Select usingTables) (union : KeywordToken (· == .UNION))
      (all : Option (KeywordToken fun k => k == .ALL || k == .DISTINCT)) (rest : Query usingTables)

/-- A selection from tables. -/
inductive Select (usingTables : Bool) : Type where
  | mk (select : KeywordToken (· == .SELECT))
      (modifiers : List (KeywordToken Keyword.isSelectModifier)) (columns : Parts usingTables .clause)
      (from_ : KeywordToken (· == .FROM)) (tables : Tables usingTables) (filter : Filter usingTables)

/-- The `WHERE` clause of a selection, if it has one. -/
inductive Filter (usingTables : Bool) : Type where
  | none
  | parts (where_ : KeywordToken (· == .WHERE)) (parts : Parts usingTables .clause)

/-- Tables listed and joined. -/
inductive Tables (usingTables : Bool) : Type where
  | last (item : Item usingTables)
  | lastIf (item : Item usingTables) (condition : Condition usingTables)
  | next (item : Item usingTables) (separator : Separator) (rest : Tables usingTables)
  | nextIf (item : Item usingTables) (condition : Condition usingTables) (join : Join)
      (rest : Tables usingTables)

/-- The condition of a join. -/
inductive Condition (usingTables : Bool) : Type where
  | on (on : KeywordToken (· == .ON)) (parts : Parts usingTables .condition)
  | columns (using_ : KeywordToken (· == .USING)) (names : Names)

/-- One item of a list of tables. -/
inductive Item (usingTables : Bool) : Type where
  | table (name : TableName) (partition : Option (KeywordToken (· == .PARTITION) × Names))
      (label : Option Alias) (hints : List Hint)
  | dual (dual : KeywordToken (· == .DUAL))
  | derived (query : Query usingTables) (label : Option (Alias × Option Names))
  | nested (tables : Tables usingTables)

/-- Tokens and parentheses of a clause or a group. -/
inductive Parts (usingTables : Bool) : Slot → Type where
  | nil {slot : Slot} : Parts usingTables slot
  | token {slot : Slot} (token : { t : Token // slot.allows usingTables t = true })
      (rest : Parts usingTables slot.tail) : Parts usingTables slot
  | query {slot : Slot} (query : Query usingTables) (rest : Parts usingTables slot.tail) :
      Parts usingTables slot
  | group {slot : Slot} (group : Parts usingTables .group) (rest : Parts usingTables slot.tail) :
      Parts usingTables slot

end

/-! ## The tokens of a tree -/

/-- Tokens in parentheses. -/
def enclose (ts : List Token) : List Token := .sym '(' :: (ts ++ [.sym ')'])

theorem enclose_append (ts z : List Token) : enclose ts ++ z = .sym '(' :: (ts ++ .sym ')' :: z) := by
  rw [enclose, List.cons_append, List.append_assoc, List.singleton_append]

/-- The tokens of leaves that are words. -/
def words {p : Keyword → Bool} (ws : List (KeywordToken p)) : List Token := ws.map Subtype.val

def TableName.tokens : TableName → List Token
  | plain table => [table.1]
  | qualified schema table => [schema.1, .sym '.', table.1]

def Names.tokens (names : Names) : List Token :=
  names.first.1 :: names.others.flatMap fun name => [.sym ',', name.1]

def Alias.tokens : Alias → List Token
  | plain name => [name.1]
  | behindAs as name => [as.1, name.1]

def Purpose.tokens : Purpose → List Token
  | .join purpose word => [purpose.1, word.1]
  | .sorting purpose word by_ => [purpose.1, word.1, by_.1]

def Hint.tokens (hint : Hint) : List Token :=
  hint.action.1 :: hint.index.1 ::
    (hint.purpose.elim [] Purpose.tokens ++ enclose hint.names.tokens)

def Join.tokens (join : Join) : List Token := words join.modifiers ++ [join.join.1]

def Separator.tokens : Separator → List Token
  | .comma => [.sym ',']
  | .join words => words.tokens

/-- What stands between the name of a table and its hints. -/
def partitionTokens (partition : Option (KeywordToken (· == .PARTITION) × Names)) : List Token :=
  partition.elim [] fun (word, names) => word.1 :: enclose names.tokens

/-- What stands behind a query that is an item of a list. -/
def derivedTokens (label : Option (Alias × Option Names)) : List Token :=
  label.elim [] fun (label, columns) =>
    label.tokens ++ columns.elim [] fun names => enclose names.tokens

variable {usingTables : Bool}

mutual

def Query.tokens : Query usingTables → List Token
  | .select select => select.tokens
  | .union select union all rest => select.tokens ++ union.1 :: (words all.toList ++ rest.tokens)

def Select.tokens : Select usingTables → List Token
  | .mk select modifiers columns from_ tables filter =>
      select.1 :: (words modifiers ++ columns.tokens ++ from_.1 :: (tables.tokens ++ filter.tokens))

def Filter.tokens : Filter usingTables → List Token
  | .none => []
  | .parts where_ parts => where_.1 :: parts.tokens

def Tables.tokens : Tables usingTables → List Token
  | .last item => item.tokens
  | .lastIf item condition => item.tokens ++ condition.tokens
  | .next item separator rest => item.tokens ++ separator.tokens ++ rest.tokens
  | .nextIf item condition join rest =>
      item.tokens ++ condition.tokens ++ join.tokens ++ rest.tokens

def Condition.tokens : Condition usingTables → List Token
  | .on on parts => on.1 :: parts.tokens
  | .columns using_ names => using_.1 :: enclose names.tokens

def Item.tokens : Item usingTables → List Token
  | .table name partition label hints =>
      name.tokens ++ partitionTokens partition ++ label.elim [] Alias.tokens ++
        hints.flatMap Hint.tokens
  | .dual dual => [dual.1]
  | .derived query label => enclose query.tokens ++ derivedTokens label
  | .nested tables => enclose tables.tokens

def Parts.tokens : {slot : Slot} → Parts usingTables slot → List Token
  | _, .nil => []
  | _, .token token rest => token.1 :: rest.tokens
  | _, .query query rest => enclose query.tokens ++ rest.tokens
  | _, .group group rest => enclose group.tokens ++ rest.tokens

end

/-! ## The tables of a tree -/

/-- The reference that the name of a table is. -/
def TableName.reference (lower : Bool) : TableName → TableReference
  | plain table => ⟨none, table.1.name lower⟩
  | qualified schema table => ⟨some (schema.1.name lower), table.1.name lower⟩

mutual

/-- The tables of a query in the order of the text. -/
def Query.tables (lower : Bool) : Query usingTables → List TableReference
  | .select select => select.tables lower
  | .union select _ _ rest => select.tables lower ++ rest.tables lower

def Select.tables (lower : Bool) : Select usingTables → List TableReference
  | .mk _ _ columns _ tables filter =>
      columns.tables lower ++ tables.tables lower ++ filter.tables lower

def Filter.tables (lower : Bool) : Filter usingTables → List TableReference
  | .none => []
  | .parts _ parts => parts.tables lower

def Tables.tables (lower : Bool) : Tables usingTables → List TableReference
  | .last item => item.tables lower
  | .lastIf item condition => item.tables lower ++ condition.tables lower
  | .next item _ rest => item.tables lower ++ rest.tables lower
  | .nextIf item condition _ rest => item.tables lower ++ condition.tables lower ++ rest.tables lower

def Condition.tables (lower : Bool) : Condition usingTables → List TableReference
  | .on _ parts => parts.tables lower
  | .columns _ _ => []

def Item.tables (lower : Bool) : Item usingTables → List TableReference
  | .table name _ _ _ => [name.reference lower]
  | .dual _ => []
  | .derived query _ => query.tables lower
  | .nested tables => tables.tables lower

def Parts.tables (lower : Bool) : {slot : Slot} → Parts usingTables slot → List TableReference
  | _, .nil => []
  | _, .token _ rest => rest.tables lower
  | _, .query query rest => query.tables lower ++ rest.tables lower
  | _, .group group rest => group.tables lower ++ rest.tables lower

end

/-! ## Nesting -/

mutual

/-- How deep the parentheses of a query are nested. Those around names hold no table and do not
    count. -/
def Query.nesting : Query usingTables → Nat
  | .select select => select.nesting
  | .union select _ _ rest => max select.nesting rest.nesting

def Select.nesting : Select usingTables → Nat
  | .mk _ _ columns _ tables filter => max columns.nesting (max tables.nesting filter.nesting)

def Filter.nesting : Filter usingTables → Nat
  | .none => 0
  | .parts _ parts => parts.nesting

def Tables.nesting : Tables usingTables → Nat
  | .last item => item.nesting
  | .lastIf item condition => max item.nesting condition.nesting
  | .next item _ rest => max item.nesting rest.nesting
  | .nextIf item condition _ rest => max item.nesting (max condition.nesting rest.nesting)

def Condition.nesting : Condition usingTables → Nat
  | .on _ parts => parts.nesting
  | .columns _ _ => 0

def Item.nesting : Item usingTables → Nat
  | .table _ _ _ _ => 0
  | .dual _ => 0
  | .derived query _ => query.nesting + 1
  | .nested tables => tables.nesting + 1

def Parts.nesting : {slot : Slot} → Parts usingTables slot → Nat
  | _, .nil => 0
  | _, .token _ rest => rest.nesting
  | _, .query query rest => max (query.nesting + 1) rest.nesting
  | _, .group group rest => max (group.nesting + 1) rest.nesting

end

end SqlTables.Grammar
