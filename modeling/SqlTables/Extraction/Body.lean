import SqlTables.Extraction.Opening
import SqlTables.Extraction.Target

/-!
# `SqlTables.Extraction.Body` — one level of a statement

After its opening and its own tables a statement is read to its end: table lists start at `FROM` and at
joins, and parenthesised spans are searched for queries.

## Contents
- **`clause`** and **`body`**: the rest of a statement.
- **`expression`**: a span in which only nested parentheses matter.
- **`afterOpening`**, **`query`** and **`span`**: statements and spans as a whole.
-/

namespace SqlTables

open TokenSource

variable {σ : Type} [TokenSource σ]

/-! ## The rest of a statement -/

/-- What one token of the rest of a statement leads to, and what follows that. -/
def clause (env : Env σ) (bound : List String) (t : Token) (rest : σ) : Findings × σ :=
  if t = .sym '(' then
    (env.search .expression bound (enclosed rest).1, (enclosed rest).2)
  else
    match t.keyword? with
    | some k =>
        if k == .FROM || k.isJoin then tableList env bound rest
        -- The words after `SELECT` may hold a `STRAIGHT_JOIN` that joins nothing.
        else if k == .SELECT then (∅, skipKeywords Keyword.isSelectModifier rest)
        -- `DELETE FROM a USING a JOIN b` lists tables, `JOIN b USING (id)` names columns.
        else if k == .USING && env.usingTables && (acceptSym? '(' rest).isNone then
          tableList env bound rest
        else (∅, rest)
    | none => (∅, rest)

/-- What belongs to a token of the body leaves no more than what stands behind the token. -/
theorem size_clause_le (env : Env σ) (bound : List String) (t : Token) (rest : σ) :
    size (clause env bound t rest).2 ≤ size rest := by
  unfold clause
  split
  · exact size_afterSpan_le rest
  · split
    · split
      · exact size_tableList_le env bound rest
      · split
        · exact size_skipKeywords_le _ rest
        · split
          · exact size_tableList_le env bound rest
          · exact Nat.le_refl _
    · exact Nat.le_refl _

/-- The rest of a statement. Where `isTop` holds, a `;` ends it: a second statement does not count. -/
def body (env : Env σ) (isTop : Bool) (bound : List String) (s : σ) : Findings :=
  match _h : next? s with
  | none => ∅
  | some (t, rest) =>
      if isTop ∧ t = .sym ';' then ∅
      else
        let part := clause env bound t rest
        part.1 ++ body env isTop (bound ++ part.1.bound) part.2
termination_by size s
decreasing_by exact Nat.lt_of_le_of_lt (size_clause_le env bound t rest) (size_lt_of_next? ‹_›)

/-- The rest of a statement, one token at a time. -/
theorem body_eq (env : Env σ) (isTop : Bool) (bound : List String) (s : σ) :
    body env isTop bound s = match next? s with
      | none => ∅
      | some (t, rest) =>
          if isTop ∧ t = .sym ';' then ∅
          else
            let part := clause env bound t rest
            part.1 ++ body env isTop (bound ++ part.1.bound) part.2 := by
  rw [body]
  split <;> next h => rw [h]

/-- A span of arguments, columns or other expressions. A `FROM` in it is part of an expression, as in
    `EXTRACT(YEAR FROM d)`. -/
def expression (env : Env σ) (bound : List String) (s : σ) : Findings :=
  match _h : next? s with
  | none => ∅
  | some (t, rest) =>
      if t = .sym '(' then
        let found := env.search .expression bound (enclosed rest).1
        found ++ expression env (bound ++ found.bound) (enclosed rest).2
      else expression env bound rest
termination_by size s
decreasing_by
  · exact Nat.lt_of_le_of_lt (size_afterSpan_le rest) (size_lt_of_next? ‹_›)
  · exact size_lt_of_next? ‹_›

/-- An expression, one token at a time. -/
theorem expression_eq (env : Env σ) (bound : List String) (s : σ) :
    expression env bound s = match next? s with
      | none => ∅
      | some (t, rest) =>
          if t = .sym '(' then
            let found := env.search .expression bound (enclosed rest).1
            found ++ expression env (bound ++ found.bound) (enclosed rest).2
          else expression env bound rest := by
  rw [expression]
  split <;> next h => rw [h]

/-! ## Statements and spans -/

/-- A statement after its opening. -/
def afterOpening (env : Env σ) (isTop : Bool) (bound : List String) (type : StatementType) (s : σ) :
    Findings :=
  let named := targets env bound type s
  named.1 ++ body env isTop (bound ++ named.1.bound) named.2

/-- A query inside parentheses. -/
def query (env : Env σ) (bound : List String) (s : σ) : Findings :=
  let start := opening env bound s
  start.found ++ afterOpening env false (bound ++ start.found.bound) start.type start.rest

/-- A span inside parentheses: a query wherever it stands, otherwise what its place says. -/
def span (env : Env σ) (place : Place) (bound : List String) (s : σ) : Findings :=
  if startsQuery s then query env bound s
  else
    match place with
    | .expression => expression env bound s
    | .tableList =>
        let list := tableList env bound s
        list.1 ++ body env false (bound ++ list.1.bound) list.2

end SqlTables
