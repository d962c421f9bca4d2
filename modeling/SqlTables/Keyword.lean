import SqlTables.StatementType
import SqlTables.Token

/-!
# `SqlTables.Keyword` — the words that steer the extraction

A bare word that is no keyword is an identifier, and so is every quoted name. Keywords are recognised in
any case of their letters.

## Contents
- **`Keyword`**, its spelling (`name`) and its recognition (`Keyword.ofWord?`, `Token.keyword?`).
- **Classes of keywords**: commands, words around `JOIN`, words after `SELECT`, words that close a
  table list, words around the object of a schema change.
- **Words of schema changes** that are no keywords anywhere else: `otherObjects`, `ddlOptions`.
-/

namespace SqlTables

/-- A word that the extraction reacts to, named as it is written. -/
inductive Keyword where
  | SELECT | INSERT | UPDATE | DELETE | REPLACE | ALTER | DROP | CREATE | TRUNCATE | WITH
  | RECURSIVE | FROM | JOIN | STRAIGHT_JOIN | LEFT | RIGHT | INNER | OUTER | CROSS | NATURAL
  | FULL | AS | DUAL | WHERE | ON | USING | SET | GROUP | ORDER | BY | HAVING | LIMIT | OFFSET
  | UNION | EXCEPT | INTERSECT | WINDOW | FOR | LOCK | INTO | PROCEDURE | RETURNING | VALUES
  | VALUE | PARTITION | USE | FORCE | IGNORE | INDEX | KEY | TABLE | TEMPORARY | IF | NOT
  | EXISTS | OR | LOW_PRIORITY | DELAYED | HIGH_PRIORITY | QUICK | ONLINE | OFFLINE | VIEW
  | UNIQUE | FULLTEXT | SPATIAL | DATABASE | SCHEMA | TRIGGER | ALL | DISTINCT | DISTINCTROW
  | SQL_SMALL_RESULT | SQL_BIG_RESULT | SQL_BUFFER_RESULT | SQL_CACHE | SQL_NO_CACHE
  | SQL_CALC_FOUND_ROWS
  deriving DecidableEq

namespace Keyword

/-- The keyword as it is written in upper case. -/
def name : Keyword → String
  | SELECT => "SELECT"
  | INSERT => "INSERT"
  | UPDATE => "UPDATE"
  | DELETE => "DELETE"
  | REPLACE => "REPLACE"
  | ALTER => "ALTER"
  | DROP => "DROP"
  | CREATE => "CREATE"
  | TRUNCATE => "TRUNCATE"
  | WITH => "WITH"
  | RECURSIVE => "RECURSIVE"
  | FROM => "FROM"
  | JOIN => "JOIN"
  | STRAIGHT_JOIN => "STRAIGHT_JOIN"
  | LEFT => "LEFT"
  | RIGHT => "RIGHT"
  | INNER => "INNER"
  | OUTER => "OUTER"
  | CROSS => "CROSS"
  | NATURAL => "NATURAL"
  | FULL => "FULL"
  | AS => "AS"
  | DUAL => "DUAL"
  | WHERE => "WHERE"
  | ON => "ON"
  | USING => "USING"
  | SET => "SET"
  | GROUP => "GROUP"
  | ORDER => "ORDER"
  | BY => "BY"
  | HAVING => "HAVING"
  | LIMIT => "LIMIT"
  | OFFSET => "OFFSET"
  | UNION => "UNION"
  | EXCEPT => "EXCEPT"
  | INTERSECT => "INTERSECT"
  | WINDOW => "WINDOW"
  | FOR => "FOR"
  | LOCK => "LOCK"
  | INTO => "INTO"
  | PROCEDURE => "PROCEDURE"
  | RETURNING => "RETURNING"
  | VALUES => "VALUES"
  | VALUE => "VALUE"
  | PARTITION => "PARTITION"
  | USE => "USE"
  | FORCE => "FORCE"
  | IGNORE => "IGNORE"
  | INDEX => "INDEX"
  | KEY => "KEY"
  | TABLE => "TABLE"
  | TEMPORARY => "TEMPORARY"
  | IF => "IF"
  | NOT => "NOT"
  | EXISTS => "EXISTS"
  | OR => "OR"
  | LOW_PRIORITY => "LOW_PRIORITY"
  | DELAYED => "DELAYED"
  | HIGH_PRIORITY => "HIGH_PRIORITY"
  | QUICK => "QUICK"
  | ONLINE => "ONLINE"
  | OFFLINE => "OFFLINE"
  | VIEW => "VIEW"
  | UNIQUE => "UNIQUE"
  | FULLTEXT => "FULLTEXT"
  | SPATIAL => "SPATIAL"
  | DATABASE => "DATABASE"
  | SCHEMA => "SCHEMA"
  | TRIGGER => "TRIGGER"
  | ALL => "ALL"
  | DISTINCT => "DISTINCT"
  | DISTINCTROW => "DISTINCTROW"
  | SQL_SMALL_RESULT => "SQL_SMALL_RESULT"
  | SQL_BIG_RESULT => "SQL_BIG_RESULT"
  | SQL_BUFFER_RESULT => "SQL_BUFFER_RESULT"
  | SQL_CACHE => "SQL_CACHE"
  | SQL_NO_CACHE => "SQL_NO_CACHE"
  | SQL_CALC_FOUND_ROWS => "SQL_CALC_FOUND_ROWS"

/-- Every keyword. -/
def all : List Keyword :=
  [SELECT, INSERT, UPDATE, DELETE, REPLACE, ALTER, DROP, CREATE, TRUNCATE, WITH, RECURSIVE, FROM,
   JOIN, STRAIGHT_JOIN, LEFT, RIGHT, INNER, OUTER, CROSS, NATURAL, FULL, AS, DUAL, WHERE, ON,
   USING, SET, GROUP, ORDER, BY, HAVING, LIMIT, OFFSET, UNION, EXCEPT, INTERSECT, WINDOW, FOR,
   LOCK, INTO, PROCEDURE, RETURNING, VALUES, VALUE, PARTITION, USE, FORCE, IGNORE, INDEX, KEY,
   TABLE, TEMPORARY, IF, NOT, EXISTS, OR, LOW_PRIORITY, DELAYED, HIGH_PRIORITY, QUICK, ONLINE,
   OFFLINE, VIEW, UNIQUE, FULLTEXT, SPATIAL, DATABASE, SCHEMA, TRIGGER, ALL, DISTINCT,
   DISTINCTROW, SQL_SMALL_RESULT, SQL_BIG_RESULT, SQL_BUFFER_RESULT, SQL_CACHE, SQL_NO_CACHE,
   SQL_CALC_FOUND_ROWS]

theorem mem_all (k : Keyword) : k ∈ all := by cases k <;> decide

/-! ## Recognition -/

/-- The keywords beside their spelling. -/
def spellings : List (Keyword × Bytes) := all.map fun k => (k, ascii k.name)

/-- The keyword that a bare word is. -/
def ofWord? (word : Bytes) : Option Keyword :=
  let spelled := word.map upper
  (spellings.find? (·.2 == spelled)).map Prod.fst

/-- The spelling of a recognised word, up to the case of its letters. -/
theorem spelling_of_ofWord? {word : Bytes} {k : Keyword} (h : ofWord? word = some k) :
    word.map upper = ascii k.name := by
  simp only [ofWord?, Option.map_eq_some_iff] at h
  obtain ⟨⟨k', text⟩, hf, rfl⟩ := h
  have hm := List.mem_of_find?_eq_some hf
  have he := List.find?_some hf
  simp only [spellings, List.mem_map, Prod.mk.injEq] at hm
  obtain ⟨_, _, rfl, rfl⟩ := hm
  exact (beq_iff_eq.mp he).symm

/-- Every keyword is recognised by its spelling. -/
theorem ofWord?_name (k : Keyword) : ofWord? (ascii k.name) = some k := by
  have hall : ∀ k ∈ all, ofWord? (ascii k.name) = some k := by decide +kernel
  exact hall k (mem_all k)

/-- Recognition does not depend on the case of letters. -/
theorem ofWord?_congr {a b : Bytes} (h : a.map upper = b.map upper) : ofWord? a = ofWord? b := by
  simp only [ofWord?, h]

/-! ## Classes -/

/-- The statement type that a command stands for. -/
def statementType? : Keyword → Option StatementType
  | SELECT => some .select
  | INSERT => some .insert
  | UPDATE => some .update
  | DELETE => some .delete
  | REPLACE => some .replace
  | ALTER => some .alter
  | DROP => some .drop
  | CREATE => some .create
  | TRUNCATE => some .truncate
  | _ => none

/-- Words that may stand in front of `JOIN`. -/
def isJoinModifier : Keyword → Bool
  | LEFT | RIGHT | INNER | OUTER | CROSS | NATURAL | FULL => true
  | _ => false

/-- Words that join another table to a list. -/
def isJoin : Keyword → Bool
  | JOIN | STRAIGHT_JOIN => true
  | _ => false

/-- Words between `SELECT` and its columns. `STRAIGHT_JOIN` is one of them there and joins nothing. -/
def isSelectModifier : Keyword → Bool
  | ALL | DISTINCT | DISTINCTROW | HIGH_PRIORITY | STRAIGHT_JOIN | SQL_SMALL_RESULT
  | SQL_BIG_RESULT | SQL_BUFFER_RESULT | SQL_CACHE | SQL_NO_CACHE | SQL_CALC_FOUND_ROWS => true
  | _ => false

/-- Clause words, which never name a table and close a table list. -/
def endsTableList : Keyword → Bool
  | SELECT | WHERE | ON | USING | SET | GROUP | ORDER | HAVING | LIMIT | UNION | EXCEPT
  | INTERSECT | WINDOW | FOR | LOCK | INTO | PROCEDURE | RETURNING | VALUES | VALUE | PARTITION => true
  | k => k.isJoinModifier || k.isJoin

/-- Words between the command of a schema change and the name of its object. -/
def isDdlFiller : Keyword → Bool
  | TABLE | TEMPORARY | IF | NOT | EXISTS | OR | REPLACE | ONLINE | OFFLINE | IGNORE | VIEW
  | UNIQUE | FULLTEXT | SPATIAL => true
  | _ => false

/-- Objects that belong to a table, which follows after `ON`. -/
def isAttachedObject : Keyword → Bool
  | INDEX | TRIGGER => true
  | _ => false

/-- Objects without a table. -/
def isOtherObject : Keyword → Bool
  | DATABASE | SCHEMA | PROCEDURE => true
  | _ => false

/-- Words between `INSERT` or `REPLACE` and its table. -/
def isInsertModifier : Keyword → Bool
  | LOW_PRIORITY | DELAYED | HIGH_PRIORITY | IGNORE | INTO => true
  | _ => false

/-- Words between `UPDATE` and its tables. -/
def isUpdateModifier : Keyword → Bool
  | LOW_PRIORITY | IGNORE => true
  | _ => false

/-- Words that a query starts with. -/
def startsQuery : Keyword → Bool
  | SELECT | WITH => true
  | _ => false

/-- The only command that starts a query is `SELECT`. -/
theorem eq_select_of_startsQuery {k : Keyword} {type : StatementType} (hq : k.startsQuery = true)
    (ht : k.statementType? = some type) : type = .select := by
  cases k <;> simp_all [startsQuery, statementType?]

end Keyword

/-! ## Words of schema changes -/

/-- Kinds of objects other than tables. A schema change of one of them has no table, and elsewhere the
    words are plain identifiers. -/
def otherObjects : List String :=
  ["USER", "ROLE", "FUNCTION", "EVENT", "SERVER", "TABLESPACE", "LOGFILE", "RESOURCE",
   "REFERENCE", "INSTANCE"]

/-- Options of views and routines, in front of the kind of object. -/
def ddlOptions : List String :=
  ["ALGORITHM", "DEFINER", "SQL", "SECURITY", "INVOKER", "AGGREGATE"]

/-- Whether a word is one of a list of names, in any case of its letters. -/
def oneOf (names : List String) (word : Bytes) : Bool := names.any fun n => (ascii n).sameWord word

/-! ## Tokens -/

namespace Token

/-- The keyword that a token is; a quoted text is none. -/
def keyword? : Token → Option Keyword
  | word text => Keyword.ofWord? text
  | _ => none

/-- Whether the token is a keyword of a class. -/
def isKeyword (t : Token) (p : Keyword → Bool) : Bool := t.keyword?.any p

/-- Whether the token is a bare word from a list of names. -/
def isWordOf (t : Token) (names : List String) : Bool :=
  match t with
  | word text => oneOf names text
  | _ => false

theorem isKeyword_of_keyword? {t : Token} {k : Keyword} (h : t.keyword? = some k)
    (p : Keyword → Bool) : t.isKeyword p = p k := by
  simp [isKeyword, h]

/-- Only words are keywords. -/
theorem isIdentifier_of_keyword? {t : Token} {k : Keyword} (h : t.keyword? = some k) :
    t.isIdentifier = true := by
  cases t with
  | word text => rfl
  | quoted q content => cases h
  | punct b => cases h

end Token

end SqlTables
