import SqlTables.Text.LowerCase.Mapping
import SqlTables.Text.LowerCase.Property

/-!
# `SqlTables.Text.LowerCase` — lower case of whole texts

The full lower-case mapping: a dotted capital I becomes two characters, and a capital sigma depends on
where in its word it stands.

## Contents
- **`lowerChar`**: the form of a character on its own.
- **`startsCased`**: whether a letter follows.
- **`toLower`**: the form of a text.
-/

namespace SqlTables.LowerCase

/-- The lower-case form of a character on its own. -/
def lowerChar (c : Char) : List Char :=
  if c = '\u0130' then ['i', '\u0307'] else [Char.ofNat (lowerCodePoint c.toNat)]

/-- On ASCII characters only the letters `A`–`Z` are moved. -/
theorem lowerChar_ascii {c : Char} (h : c.toNat < 128) : lowerChar c = [c.toLower] := by
  have all : ∀ n : Fin 128, lowerChar (Char.ofNat n) = [(Char.ofNat n).toLower] := by
    decide +kernel
  have hc := all ⟨c.toNat, h⟩
  rwa [Char.ofNat_toNat] at hc

/-- Whether the next character that counts has a case. -/
def startsCased (text : List Char) : Bool :=
  (text.dropWhile isCaseIgnorable).head?.any isCased

/-- A capital sigma is final if a letter stands before it in its word and none after it. -/
def lowerSigma (afterCased : Bool) (rest : List Char) : Char :=
  if afterCased && !startsCased rest then 'ς' else 'σ'

/-- The lower-case form of a text, where `afterCased` says whether the last character before it that
    counts has a case. -/
def lowerFrom (afterCased : Bool) : List Char → List Char
  | [] => []
  | c :: rest =>
      (if c = 'Σ' then [lowerSigma afterCased rest] else lowerChar c) ++
        lowerFrom (if isCaseIgnorable c then afterCased else isCased c) rest

/-- The lower-case form of a text. -/
def toLower (text : String) : String := String.ofList (lowerFrom false text.toList)

end SqlTables.LowerCase
