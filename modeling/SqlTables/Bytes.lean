/-!
# `SqlTables.Bytes` — statement text as bytes

A statement arrives as raw bytes that need not be valid text in any encoding, so every position and
every cut of the library is a position in, or a cut of, a list of bytes.

## Contents
- **`Bytes`**, with `ascii` (a fixed word of the language) and `utf8` (any text).
- **Comparison ignoring case.** Only the letters `A`–`Z` and `a`–`z` have a case here: `upper`,
  `Bytes.sameWord`.
- **Search.** `Bytes.offset?` finds the least offset at which a given run of bytes starts.
-/

namespace SqlTables

/-- Raw bytes, of a statement or of a part of one. -/
abbrev Bytes := List UInt8

/-- The bytes of a text that holds ASCII characters only. -/
def ascii (text : String) : Bytes := text.toList.map Char.toUInt8

/-- The UTF-8 bytes of a text. -/
def utf8 (text : String) : Bytes := text.toUTF8.data.toList

/-! ## Comparison ignoring the case of ASCII letters -/

/-- The upper-case form of an ASCII letter; any other byte is its own. -/
def upper (b : UInt8) : UInt8 := if 0x61 ≤ b ∧ b ≤ 0x7a then b - 0x20 else b

/-- The same bytes up to the case of ASCII letters. -/
def Bytes.sameWord (a b : Bytes) : Bool := a.map upper == b.map upper

theorem sameWord_iff {a b : Bytes} : a.sameWord b = true ↔ a.map upper = b.map upper := by
  simp [Bytes.sameWord]

theorem sameWord_self (a : Bytes) : a.sameWord a = true := sameWord_iff.mpr rfl

theorem length_eq_of_sameWord {a b : Bytes} (h : a.sameWord b = true) : a.length = b.length := by
  simpa using congrArg List.length (sameWord_iff.mp h)

/-! ## Search -/

/-- The least offset at which `pat` starts in a run of bytes. -/
def Bytes.offset? (pat : Bytes) : Bytes → Option Nat
  | [] => if pat.isEmpty then some 0 else none
  | b :: rest => if pat.isPrefixOf (b :: rest) then some 0 else (offset? pat rest).map (· + 1)

/-- What is found at an offset lies within the bytes. -/
theorem offset?_le {pat bs : Bytes} {n : Nat} (h : Bytes.offset? pat bs = some n) :
    n + pat.length ≤ bs.length := by
  induction bs generalizing n with
  | nil =>
      cases pat with
      | nil => simpa [Bytes.offset?, eq_comm] using h
      | cons c cs => simp [Bytes.offset?] at h
  | cons b rest ih =>
      simp only [Bytes.offset?] at h
      by_cases hp : pat.isPrefixOf (b :: rest)
      · simp only [hp, if_true, Option.some.injEq] at h
        subst h
        simpa using (List.isPrefixOf_iff_prefix.mp hp).length_le
      · simp only [hp, Bool.false_eq_true, if_false, Option.map_eq_some_iff] at h
        obtain ⟨m, hm, rfl⟩ := h
        have := ih hm
        simp only [List.length_cons]
        omega

end SqlTables
