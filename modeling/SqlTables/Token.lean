import SqlTables.Bytes

/-!
# `SqlTables.Token` — the lexical units of a statement

A token is a word, a quoted text or a single other byte; the end of the statement is no token. A quoted
text is one opaque unit, so nothing written inside quotes is ever read as a keyword or as a
parenthesis.

## Contents
- **`Quote`**: the three delimiters and which of them let a backslash escape the next byte.
- **`Token`**, with `Token.sym` for a token written as one character and `Token.isIdentifier`.
-/

namespace SqlTables

/-! ## Quotes -/

/-- The delimiters of a quoted text. -/
inductive Quote where
  /-- An apostrophe, around a string. -/
  | single
  /-- A double quotation mark, around a string or an identifier. -/
  | double
  /-- A grave accent, around an identifier. -/
  | backtick
  deriving DecidableEq

namespace Quote

/-- The delimiter as it is written. -/
def byte : Quote → UInt8
  | single => 0x27
  | double => 0x22
  | backtick => 0x60

/-- The quote that a byte opens. -/
def ofByte? (b : UInt8) : Option Quote :=
  if b = single.byte then some single
  else if b = double.byte then some double
  else if b = backtick.byte then some backtick
  else none

/-- Whether a backslash takes the byte after it into the quoted text. -/
def escapes : Quote → Bool
  | single | double => true
  | backtick => false

theorem ofByte?_byte (q : Quote) : ofByte? q.byte = some q := by cases q <;> rfl

/-- A delimiter is the byte of its quote. -/
theorem byte_of_ofByte? {b : UInt8} {q : Quote} (h : ofByte? b = some q) : q.byte = b := by
  unfold ofByte? at h
  split at h
  · next hb => cases h; exact hb.symm
  · split at h
    · next hb => cases h; exact hb.symm
    · split at h
      · next hb => cases h; exact hb.symm
      · cases h

end Quote

/-! ## Tokens -/

/-- A lexical unit of a statement. -/
inductive Token where
  /-- A keyword, a bare identifier or a number. -/
  | word (text : Bytes)
  /-- The raw bytes between two delimiters; a doubled delimiter is kept as it is written. -/
  | quoted (quote : Quote) (content : Bytes)
  /-- Any other single byte. -/
  | punct (byte : UInt8)
  deriving DecidableEq

namespace Token

/-- The token that one ASCII character of punctuation stands for. -/
def sym (c : Char) : Token := punct c.toUInt8

/-- Whether the token can name a table, a schema or an alias. -/
def isIdentifier : Token → Bool
  | word _ => true
  | quoted .single _ => false
  | quoted _ _ => true
  | punct _ => false

theorem isIdentifier_word (text : Bytes) : (word text).isIdentifier = true := rfl

theorem isIdentifier_sym (c : Char) : (sym c).isIdentifier = false := rfl

end Token

end SqlTables
