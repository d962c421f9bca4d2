import SqlTables.Text.LowerCase
import SqlTables.Text.Utf8
import SqlTables.Token.Quoted

/-!
# `SqlTables.Name` — the names that tokens spell

## Contents
- **`Token.spelling`**: the bytes of a name without its quotes.
- **`Token.name`**: the name as text, in lower case if wanted.
- **`sameName`**: equality of names up to the case of ASCII letters.
-/

namespace SqlTables

/-- The bytes of the name that a token spells; a doubled delimiter inside quotes is one. -/
def Token.spelling : Token → Bytes
  | word text => text
  | quoted q content => q.collapse content
  | punct _ => []

/-- The name that a token spells, in lower case if `lower` asks for it. -/
def Token.name (lower : Bool) (t : Token) : String :=
  let text := String.ofList (Utf8.decodeLossy t.spelling)
  if lower then LowerCase.toLower text else text

/-- Whether two names are equal up to the case of ASCII letters. -/
def sameName (a b : String) : Bool := a.toList.map Char.toLower == b.toList.map Char.toLower

theorem sameName_iff {a b : String} :
    sameName a b = true ↔ a.toList.map Char.toLower = b.toList.map Char.toLower := by
  simp [sameName]

theorem sameName_self (a : String) : sameName a a = true := sameName_iff.mpr rfl

theorem sameName_symm {a b : String} (h : sameName a b = true) : sameName b a = true :=
  sameName_iff.mpr (sameName_iff.mp h).symm

end SqlTables
