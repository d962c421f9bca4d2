import SqlTables.Token.Gap
import SqlTables.Token.Quoted

/-!
# `SqlTables.Token.Lexer` — the token stream of a statement

## Contents
- **`isWordByte`**: what words are made of; every byte outside ASCII belongs to a word.
- **`Bytes.nextToken?`**: the next token and what follows it.
- **`Bytes.tokens`**: all tokens of a statement in order.
-/

namespace SqlTables

/-- Letters, digits, `_`, `$` and every byte outside ASCII. -/
def isWordByte (b : UInt8) : Bool :=
  0x30 ≤ b && b ≤ 0x39 || 0x41 ≤ b && b ≤ 0x5a || 0x61 ≤ b && b ≤ 0x7a ||
    b == '_'.toUInt8 || b == '$'.toUInt8 || 0x80 ≤ b

/-- The next token and the bytes after it; none at the end of the statement. -/
def Bytes.nextToken? (bs : Bytes) : Option (Token × Bytes) :=
  match skipGap bs with
  | [] => none
  | b :: rest =>
      match Quote.ofByte? b with
      | some q => some (.quoted q (q.split rest).1, (q.split rest).2)
      | none =>
          if isWordByte b then
            some (.word (b :: rest.takeWhile isWordByte), rest.dropWhile isWordByte)
          else some (.punct b, rest)

/-- What follows a token is a proper suffix. -/
theorem nextToken?_suffix {bs rest : Bytes} {t : Token} (h : bs.nextToken? = some (t, rest)) :
    ∃ b tail, skipGap bs = b :: tail ∧ rest <:+ tail := by
  unfold Bytes.nextToken? at h
  split at h
  · cases h
  · next b tail hs =>
      refine ⟨b, tail, hs, ?_⟩
      split at h
      · cases h
        exact Quote.split_rest_suffix _ _
      · split at h
        · cases h
          exact List.dropWhile_suffix _
        · cases h
          exact List.suffix_refl _

/-- What is left behind a token is an end of the text. -/
theorem suffix_of_nextToken? {bs rest : Bytes} {t : Token} (h : bs.nextToken? = some (t, rest)) :
    rest <:+ bs := by
  obtain ⟨b, tail, hs, hsuf⟩ := nextToken?_suffix h
  exact hsuf.trans ((List.suffix_cons b tail).trans (hs ▸ skipGap_suffix bs))

/-- A token takes at least one byte. -/
theorem length_lt_of_nextToken? {bs rest : Bytes} {t : Token} (h : bs.nextToken? = some (t, rest)) :
    rest.length < bs.length := by
  obtain ⟨b, tail, hs, hsuf⟩ := nextToken?_suffix h
  have hle := length_skipGap_le bs
  have hr := hsuf.length_le
  rw [hs, List.length_cons] at hle
  omega

/-- The tokens of a statement in order. -/
def Bytes.tokens (bs : Bytes) : List Token :=
  match _h : bs.nextToken? with
  | some (t, rest) => t :: Bytes.tokens rest
  | none => []
termination_by bs.length
decreasing_by exact length_lt_of_nextToken? ‹_›

/-- The tokens of a text are its next one and those of what is left. -/
theorem tokens_of_nextToken? {bs rest : Bytes} {t : Token} (h : bs.nextToken? = some (t, rest)) :
    bs.tokens = t :: Bytes.tokens rest := by
  rw [Bytes.tokens]
  split
  · next heq => rw [h] at heq; cases heq; rfl
  · next heq => rw [h] at heq; cases heq

theorem tokens_of_nextToken?_none {bs : Bytes} (h : bs.nextToken? = none) : bs.tokens = [] := by
  rw [Bytes.tokens]
  split
  · next heq => rw [h] at heq; cases heq
  · rfl

end SqlTables
