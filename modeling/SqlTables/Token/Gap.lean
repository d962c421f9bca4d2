import SqlTables.Bytes

/-!
# `SqlTables.Token.Gap` — what stands between two tokens

A gap is any sequence of separator bytes and comments. A comment that is never closed runs to the end
of the statement.

## Contents
- **Separators**: `isSeparator`.
- **Comments**: where one starts (`startsLineComment`, `startsBlockComment`) and what follows it
  (`afterLine`, `afterBlock`, `afterComment?`).
- **`skipGap`**, which drops the gap in front of a token.
-/

namespace SqlTables

/-! ## Separators -/

/-- Blanks and control characters, which end a token and belong to none. -/
def isSeparator (b : UInt8) : Bool := b ≤ 0x20 || b == 0x7f

/-! ## Comments -/

/-- Whether a comment to the end of the line starts here: at `#`, or at `--` if a separator or
    nothing at all follows. `a--b` holds two minus signs. -/
def startsLineComment (bs : Bytes) : Bool :=
  (ascii "#").isPrefixOf bs ||
    (ascii "--").isPrefixOf bs && (bs.drop 2).head?.all isSeparator

/-- Whether a comment in `/*` and `*/` starts here. -/
def startsBlockComment (bs : Bytes) : Bool := (ascii "/*").isPrefixOf bs

/-- Whether a comment of either kind starts here. -/
def startsComment (bs : Bytes) : Bool := startsLineComment bs || startsBlockComment bs

/-- What follows the next line end. -/
def afterLine (bs : Bytes) : Bytes :=
  match bs.findIdx? (· == '\n'.toUInt8) with
  | some n => bs.drop (n + 1)
  | none => []

/-- What follows the next `*/`. -/
def afterBlock (body : Bytes) : Bytes :=
  match Bytes.offset? (ascii "*/") body with
  | some n => body.drop (n + 2)
  | none => []

/-- What follows the comment that starts here, if one does. -/
def afterComment? (bs : Bytes) : Option Bytes :=
  if startsLineComment bs then some (afterLine bs)
  else if startsBlockComment bs then some (afterBlock (bs.drop 2))
  else none

theorem afterLine_suffix (bs : Bytes) : afterLine bs <:+ bs := by
  unfold afterLine
  split
  · exact List.drop_suffix _ _
  · exact List.nil_suffix

theorem afterBlock_suffix (body : Bytes) : afterBlock body <:+ body := by
  unfold afterBlock
  split
  · exact List.drop_suffix _ _
  · exact List.nil_suffix

/-- A line is at least one byte long, so less is left behind it. -/
theorem afterLine_length {b : UInt8} {rest : Bytes} :
    (afterLine (b :: rest)).length < (b :: rest).length := by
  unfold afterLine
  split
  · simp only [List.length_drop, List.length_cons]
    omega
  · simp

/-- What is left behind a comment is an end of the text. -/
theorem afterComment?_suffix {bs rest : Bytes} (h : afterComment? bs = some rest) :
    rest <:+ bs := by
  unfold afterComment? at h
  split at h
  · cases h
    exact afterLine_suffix bs
  · split at h
    · cases h
      exact (afterBlock_suffix _).trans (List.drop_suffix _ _)
    · cases h

/-- A comment is never empty. -/
theorem afterComment?_length {bs rest : Bytes} (h : afterComment? bs = some rest) :
    rest.length < bs.length := by
  unfold afterComment? at h
  cases bs with
  | nil =>
      have hn : startsLineComment [] = false ∧ startsBlockComment [] = false := by decide
      simp [hn] at h
  | cons b bs =>
      split at h
      · cases h
        exact afterLine_length
      · split at h
        · cases h
          have hle := (afterBlock_suffix ((b :: bs).drop 2)).length_le
          simp only [List.length_drop, List.length_cons] at hle ⊢
          omega
        · cases h

theorem afterComment?_isSome (bs : Bytes) : (afterComment? bs).isSome = startsComment bs := by
  unfold afterComment? startsComment
  cases startsLineComment bs <;> cases startsBlockComment bs <;> rfl

theorem afterComment?_eq_none_iff {bs : Bytes} : afterComment? bs = none ↔ startsComment bs = false := by
  rw [← afterComment?_isSome, Option.isSome_eq_false_iff, Option.isNone_iff_eq_none]

/-! ## Gaps -/

/-- The bytes from the next token on: separators and comments in front of it are dropped. -/
def skipGap (bs : Bytes) : Bytes :=
  match _h : afterComment? (bs.dropWhile isSeparator) with
  | some rest => skipGap rest
  | none => bs.dropWhile isSeparator
termination_by bs.length
decreasing_by
  exact Nat.lt_of_lt_of_le (afterComment?_length ‹_›) (List.dropWhile_suffix _).length_le

/-- A gap, one comment at a time with the separators in front of it. -/
theorem skipGap_eq (bs : Bytes) :
    skipGap bs = match afterComment? (bs.dropWhile isSeparator) with
      | some rest => skipGap rest
      | none => bs.dropWhile isSeparator := by
  rw [skipGap]
  split <;> next h => rw [h]

/-- What is left behind a gap is an end of the text. -/
theorem skipGap_suffix (bs : Bytes) : skipGap bs <:+ bs := by
  fun_induction skipGap bs with
  | case1 bs rest h ih =>
      exact ih.trans ((afterComment?_suffix h).trans (List.dropWhile_suffix _))
  | case2 bs h => exact List.dropWhile_suffix _

theorem length_skipGap_le (bs : Bytes) : (skipGap bs).length ≤ bs.length :=
  (skipGap_suffix bs).length_le

end SqlTables
