import SqlTables.Token.Lexer
import SqlTables.Token.Span

/-!
# `SqlTables.Cursor` — reading by position

A cursor stands at a byte offset of a statement and reads what starts there. It never moves back and never
past the end, whatever is asked of it.

## Contents
- **`Cursor`** and where it stands (`rest`, `atEnd`, `peekByte?`, `atComment`, `quote?`).
- **Skipping**: `skipComment`, `skipGap`, `skipQuoted`.
- **Reading**: `next`, `peek`.
- **Parentheses**: `closing`, `enclosed`.
-/

namespace SqlTables

/-- A byte offset of a statement. -/
structure Cursor where
  text : Bytes
  position : Nat
  deriving DecidableEq

namespace Cursor

/-- The cursor at the start of a statement. -/
def start (text : Bytes) : Cursor := ⟨text, 0⟩

/-- The bytes from the cursor on. -/
def rest (c : Cursor) : Bytes := c.text.drop c.position

/-- The cursor in front of the given end of the statement. -/
def moveTo (c : Cursor) (rest : Bytes) : Cursor :=
  { c with position := c.text.length - rest.length }

/-- Whether nothing is left. -/
def atEnd (c : Cursor) : Bool := c.text.length ≤ c.position

/-- The byte at the cursor. -/
def peekByte? (c : Cursor) : Option UInt8 := c.text[c.position]?

/-- Whether a comment starts at the cursor. -/
def atComment (c : Cursor) : Bool := startsComment c.rest

/-- The quote that opens at the cursor. -/
def quote? (c : Cursor) : Option Quote := c.peekByte?.bind Quote.ofByte?

/-! ## Skipping -/

/-- Skips the comment at the cursor; says whether there was one. -/
def skipComment (c : Cursor) : Bool × Cursor :=
  match afterComment? c.rest with
  | some rest => (true, c.moveTo rest)
  | none => (false, c)

/-- Skips separators and comments. -/
def skipGap (c : Cursor) : Cursor := c.moveTo (SqlTables.skipGap c.rest)

/-- Skips the quoted text at the cursor and answers its content. Away from a quote the content is
    empty and the cursor stays. -/
def skipQuoted (c : Cursor) : Bytes × Cursor :=
  match c.quote? with
  | some q =>
      let parts := q.split (c.rest.drop 1)
      (parts.1, c.moveTo parts.2)
  | none => ([], c)

/-! ## Reading -/

/-- The next token; at the end of the statement there is none and the cursor moves there. -/
def next (c : Cursor) : Option Token × Cursor :=
  match c.rest.nextToken? with
  | some (t, rest) => (some t, c.moveTo rest)
  | none => (none, c.moveTo [])

/-- The next token, while the cursor stays. -/
def peek (c : Cursor) : Option Token := c.next.1

/-! ## Parentheses -/

/-- The offset of the `)` that closes the parenthesis at the offset `opening`, or the length of the
    statement if it is never closed. The byte at `opening` is not looked at. -/
def closing (c : Cursor) (opening : Nat) : Nat :=
  c.text.length - (fromClosing 0 (c.text.drop (opening + 1))).length

/-- The bytes inside the parenthesis whose opening byte stands just before the cursor, which moves
    past the closing one. At offset 0 the first byte is taken for the opening one. -/
def enclosed (c : Cursor) : Bytes × Cursor :=
  let close := c.closing (c.position - 1)
  ((c.text.take close).drop (min c.position close),
    { c with position := min (close + 1) c.text.length })

theorem rest_start (text : Bytes) : (start text).rest = text := rfl

theorem atEnd_iff {c : Cursor} : c.atEnd = true ↔ c.rest = [] := by
  simp [atEnd, rest, List.drop_eq_nil_iff]

end Cursor

end SqlTables
