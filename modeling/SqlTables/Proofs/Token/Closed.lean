import SqlTables.Proofs.Token.Append
import SqlTables.Proofs.Token.Lexeme

/-!
# `SqlTables.Proofs.Token.Closed` — texts that leave nothing open

A text in which every quoted text and every comment ends keeps its tokens when something follows on a new
line: the line end closes the only comment that may still be open, and keeps the last word and the last
delimiter apart from what follows.

## Contents
- **`Bytes.closes`**: every quoted text and every comment in `/*` and `*/` ends.
- **Comments and quoted texts** in front of a new line.
- **`tokens_append_of_closes`**: the tokens of the text and of what follows.
-/

namespace SqlTables

/-- Whether every quoted text and every comment in `/*` and `*/` ends. -/
def Bytes.closes (bs : Bytes) : Bool :=
  match bs with
  | [] => true
  | b :: rest =>
      if startsLineComment (b :: rest) then Bytes.closes (afterLine (b :: rest))
      else if startsBlockComment (b :: rest) then
        (Bytes.offset? (ascii "*/") (rest.drop 1)).isSome &&
          Bytes.closes (afterBlock (rest.drop 1))
      else
        match Quote.ofByte? b with
        | some q => (q.closing? rest).isSome && Bytes.closes (q.split rest).2
        | none => Bytes.closes rest
termination_by bs.length
decreasing_by
  · exact afterLine_length
  · have := (afterBlock_suffix (rest.drop 1)).length_le
    simp only [List.length_drop, List.length_cons] at this ⊢
    omega
  · exact Nat.lt_succ_of_le (Quote.split_rest_suffix _ rest).length_le
  · exact Nat.lt_succ_self _

/-! ## Tokens behind a gap -/

/-- Tokens are read from the end of the gap. -/
theorem tokens_congr {a b : Bytes} (h : skipGap a = skipGap b) : a.tokens = b.tokens := by
  have hnext : a.nextToken? = b.nextToken? := by
    rw [Bytes.nextToken?, Bytes.nextToken?, h]
  cases hb : b.nextToken? with
  | none => rw [tokens_of_nextToken?_none hb, tokens_of_nextToken?_none (hnext.trans hb)]
  | some r => rw [tokens_of_nextToken? hb, tokens_of_nextToken? (hnext.trans hb)]

theorem tokens_nil : Bytes.tokens [] = [] :=
  tokens_of_nextToken?_none (nextToken?_of_skipGap_nil (List.suffix_nil.mp (skipGap_suffix [])))

/-- A separator in front of a text does not change its tokens. -/
theorem tokens_separator {b : UInt8} (hb : isSeparator b = true) (rest : Bytes) :
    Bytes.tokens (b :: rest) = Bytes.tokens rest :=
  tokens_congr (skipGap_separator hb rest)

/-- A comment in front of a text does not change its tokens. -/
theorem tokens_comment {bs rest : Bytes} (h : afterComment? bs = some rest) :
    bs.tokens = rest.tokens :=
  tokens_congr (skipGap_comment h)

/-- There is no gap in front of a byte that is no separator and starts no comment. -/
theorem skipGap_of_startsComment {b : UInt8} {rest : Bytes} (hs : isSeparator b = false)
    (hc : startsComment (b :: rest) = false) : skipGap (b :: rest) = b :: rest := by
  have hsep : ¬ isSeparator b = true := by simp [hs]
  rw [skipGap_eq, List.dropWhile_cons_of_neg hsep, afterComment?_eq_none_iff.mpr hc]

/-! ## In front of a new line -/

/-- A text and, on a new line, another one. -/
def onNewLine (a z : Bytes) : Bytes := a ++ '\n'.toUInt8 :: z

variable {a rest z : Bytes} {b : UInt8} {q : Quote}

theorem onNewLine_cons (b : UInt8) (rest z : Bytes) :
    onNewLine (b :: rest) z = b :: onNewLine rest z := rfl

/-- The line end behind a text is a separator, as a `--` at the end of the text wants it: the same comments
    start. -/
theorem startsLineComment_onNewLine (b : UInt8) (rest z : Bytes) :
    startsLineComment (b :: onNewLine rest z) = startsLineComment (b :: rest) := by
  rw [Bool.eq_iff_iff, startsLineComment_cons, startsLineComment_cons]
  have hdash : (∃ tail, onNewLine rest z = '-'.toUInt8 :: tail ∧ tail.head?.all isSeparator = true) ↔
      ∃ tail, rest = '-'.toUInt8 :: tail ∧ tail.head?.all isSeparator = true := by
    cases rest with
    | nil =>
        constructor
        · rintro ⟨tail, ht, _⟩
          exact absurd (List.cons.inj ht).1 (by decide)
        · rintro ⟨tail, ⟨⟩, _⟩
    | cons c tail =>
        rw [onNewLine_cons]
        -- What comes behind both dashes is the same byte, or a line end instead of nothing.
        have hhead : (onNewLine tail z).head?.all isSeparator = tail.head?.all isSeparator := by
          cases tail <;> rfl
        constructor
        · rintro ⟨_, ht, hs⟩
          obtain ⟨rfl, rfl⟩ := List.cons.inj ht
          exact ⟨tail, rfl, hhead ▸ hs⟩
        · rintro ⟨_, ht, hs⟩
          obtain ⟨rfl, rfl⟩ := List.cons.inj ht
          exact ⟨_, rfl, hhead.trans hs⟩
  rw [hdash]

/-- The line end behind a text completes no `/*`. -/
theorem startsBlockComment_onNewLine (b : UInt8) (rest z : Bytes) :
    startsBlockComment (b :: onNewLine rest z) = startsBlockComment (b :: rest) := by
  rw [Bool.eq_iff_iff, startsBlockComment_iff, startsBlockComment_iff]
  cases rest with
  | nil =>
      constructor
      · rintro ⟨tail, ht⟩
        exact absurd (List.cons.inj (List.cons.inj ht).2).1 (by decide)
      · rintro ⟨tail, ht⟩
        cases (List.cons.inj ht).2
  | cons c tail =>
      rw [onNewLine_cons]
      constructor
      · rintro ⟨_, ht⟩
        obtain ⟨hb, ht⟩ := List.cons.inj ht
        rw [hb, (List.cons.inj ht).1]
        exact ⟨tail, rfl⟩
      · rintro ⟨_, ht⟩
        obtain ⟨hb, ht⟩ := List.cons.inj ht
        rw [hb, (List.cons.inj ht).1]
        exact ⟨_, rfl⟩

theorem startsComment_eq_false (hl : ¬ startsLineComment (b :: rest) = true)
    (hb : ¬ startsBlockComment (b :: rest) = true) : startsComment (b :: rest) = false :=
  Bool.or_eq_false_iff.mpr ⟨Bool.eq_false_iff.mpr hl, Bool.eq_false_iff.mpr hb⟩

/-- No comment starts because a new line follows. -/
theorem startsComment_onNewLine (h : startsComment (b :: rest) = false) (z : Bytes) :
    startsComment (b :: onNewLine rest z) = false := by
  rw [startsComment, startsLineComment_onNewLine, startsBlockComment_onNewLine]
  exact h

theorem afterLine_newline (rest : Bytes) : afterLine ('\n'.toUInt8 :: rest) = rest := by
  unfold afterLine
  rw [List.findIdx?_cons, if_pos (by decide)]
  rfl

/-- A comment to the end of the line ends at a line end of its own or at the new line. -/
theorem afterLine_onNewLine (a z : Bytes) :
    afterLine (onNewLine a z) = onNewLine (afterLine a) z ∨
      afterLine a = [] ∧ afterLine (onNewLine a z) = z := by
  induction a with
  | nil => exact Or.inr ⟨rfl, afterLine_newline z⟩
  | cons b rest ih =>
      rw [onNewLine_cons]
      by_cases hb : b = '\n'.toUInt8
      · subst hb
        rw [afterLine_newline, afterLine_newline]
        exact Or.inl rfl
      · rw [afterLine_cons hb, afterLine_cons hb]
        exact ih

/-- A comment that is closed in the text ends there. -/
theorem afterBlock_onNewLine (h : (Bytes.offset? (ascii "*/") a).isSome = true) (z : Bytes) :
    afterBlock (onNewLine a z) = onNewLine (afterBlock a) z := afterBlock_append h _

/-- A quoted text that is closed in the text ends there, since a line end doubles no delimiter. -/
theorem split_onNewLine (h : (q.closing? a).isSome = true) (z : Bytes) :
    q.split (onNewLine a z) = ((q.split a).1, onNewLine (q.split a).2 z) := by
  obtain ⟨n, hn⟩ := Option.isSome_iff_exists.mp h
  have hnewline : '\n'.toUInt8 ≠ q.byte := by cases q <;> decide
  exact split_append hn (Or.inr fun hhead => hnewline (Option.some.inj hhead))

/-! ## The tokens of both texts -/

theorem tokens_quoted (hs : startsComment (b :: rest) = false) (hq : Quote.ofByte? b = some q) :
    Bytes.tokens (b :: rest) = .quoted q (q.split rest).1 :: Bytes.tokens (q.split rest).2 := by
  obtain rfl := Quote.byte_of_ofByte? hq
  have hsep : isSeparator q.byte = false := by cases q <;> decide
  exact tokens_of_nextToken? (nextToken?_quoted (skipGap_of_startsComment hsep hs))

theorem tokens_word (hb : isWordByte b = true) :
    Bytes.tokens (b :: rest) =
      .word (b :: rest.takeWhile isWordByte) :: Bytes.tokens (rest.dropWhile isWordByte) :=
  tokens_of_nextToken? (nextToken?_word (skipGap_of_isWordByte hb rest) hb)

theorem tokens_punct (hs : startsComment (b :: rest) = false) (hsep : isSeparator b = false)
    (hq : Quote.ofByte? b = none) (hb : isWordByte b = false) :
    Bytes.tokens (b :: rest) = .punct b :: Bytes.tokens rest :=
  tokens_of_nextToken? (nextToken?_punct (skipGap_of_startsComment hsep hs) hq hb)

/-- A byte in front of both texts: the word that it belongs to ends where it did. -/
theorem tokens_word_onNewLine (hb : isWordByte b = true)
    (h : Bytes.tokens (onNewLine rest z) = Bytes.tokens rest ++ Bytes.tokens z) :
    Bytes.tokens (onNewLine (b :: rest) z) = Bytes.tokens (b :: rest) ++ Bytes.tokens z := by
  rw [onNewLine_cons, tokens_word hb, tokens_word hb]
  cases rest with
  | nil =>
      have hline : onNewLine [] z = '\n'.toUInt8 :: z := rfl
      rw [hline, List.takeWhile_cons_of_neg (by decide), List.dropWhile_cons_of_neg (by decide),
        tokens_separator (by decide), List.takeWhile_nil, List.dropWhile_nil, tokens_nil]
      rfl
  | cons c rest =>
      by_cases hc : isWordByte c = true
      · rw [onNewLine_cons, tokens_word hc, tokens_word hc, List.cons_append] at h
        obtain ⟨hword, htail⟩ := List.cons.inj h
        rw [onNewLine_cons, List.takeWhile_cons_of_pos hc, List.takeWhile_cons_of_pos hc,
          List.dropWhile_cons_of_pos hc, List.dropWhile_cons_of_pos hc, htail, Token.word.inj hword]
        rfl
      · rw [onNewLine_cons, List.takeWhile_cons_of_neg hc, List.takeWhile_cons_of_neg hc,
          List.dropWhile_cons_of_neg hc, List.dropWhile_cons_of_neg hc, ← onNewLine_cons, h]
        rfl

/-- A line comment in front of both texts is left at the same place, unless it runs up to the end. -/
theorem tokens_line_onNewLine (hl : startsLineComment (b :: rest) = true)
    (ih : Bytes.tokens (onNewLine (afterLine (b :: rest)) z) =
      Bytes.tokens (afterLine (b :: rest)) ++ Bytes.tokens z) :
    Bytes.tokens (onNewLine (b :: rest) z) = Bytes.tokens (b :: rest) ++ Bytes.tokens z := by
  have hl' : startsLineComment (b :: onNewLine rest z) = true := by
    rw [startsLineComment_onNewLine, hl]
  have ha : afterComment? (b :: rest) = some (afterLine (b :: rest)) := if_pos hl
  have ha' : afterComment? (b :: onNewLine rest z) = some (afterLine (b :: onNewLine rest z)) :=
    if_pos hl'
  rw [onNewLine_cons, tokens_comment ha, tokens_comment ha', ← onNewLine_cons]
  rcases afterLine_onNewLine (b :: rest) z with hline | ⟨hend, hline⟩
  · rw [hline]
    exact ih
  · -- The line end put behind the text is what ends the comment.
    rw [hline, hend, tokens_nil]
    rfl

/-- A block comment in front of both texts ends at the same mark. -/
theorem tokens_block_onNewLine (hl : ¬ startsLineComment (b :: rest) = true)
    (hb : startsBlockComment (b :: rest) = true)
    (hends : (Bytes.offset? (ascii "*/") (rest.drop 1)).isSome = true)
    (ih : Bytes.tokens (onNewLine (afterBlock (rest.drop 1)) z) =
      Bytes.tokens (afterBlock (rest.drop 1)) ++ Bytes.tokens z) :
    Bytes.tokens (onNewLine (b :: rest) z) = Bytes.tokens (b :: rest) ++ Bytes.tokens z := by
  have hl' : ¬ startsLineComment (b :: onNewLine rest z) = true := by
    rw [startsLineComment_onNewLine]
    exact hl
  have hb' : startsBlockComment (b :: onNewLine rest z) = true := by
    rw [startsBlockComment_onNewLine, hb]
  have ha : afterComment? (b :: rest) = some (afterBlock (rest.drop 1)) := by
    rw [afterComment?, if_neg hl, if_pos hb]
    rfl
  have ha' : afterComment? (b :: onNewLine rest z) =
      some (afterBlock ((onNewLine rest z).drop 1)) := by
    rw [afterComment?, if_neg hl', if_pos hb']
    rfl
  -- The second byte of the mark is there, so the byte that is dropped is the same one.
  have hdrop : (onNewLine rest z).drop 1 = onNewLine (rest.drop 1) z := by
    cases rest with
    | nil =>
        obtain ⟨tail, ht⟩ := startsBlockComment_iff.mp hb
        cases (List.cons.inj ht).2
    | cons c rest => rfl
  rw [onNewLine_cons, tokens_comment ha, tokens_comment ha', hdrop, afterBlock_onNewLine hends]
  exact ih

/-- A text that leaves nothing open keeps its tokens, whatever follows on a new line. -/
theorem tokens_append_of_closes (h : a.closes = true) (z : Bytes) :
    Bytes.tokens (onNewLine a z) = a.tokens ++ z.tokens := by
  -- Along the search for something open, which passes a word byte by byte.
  fun_induction Bytes.closes a with
  | case1 =>
      rw [tokens_nil]
      exact tokens_separator (by decide) z
  | case2 b rest hl ih => exact tokens_line_onNewLine hl (ih h)
  | case3 b rest hl hb ih =>
      obtain ⟨hends, hrest⟩ := Bool.and_eq_true _ _ ▸ h
      exact tokens_block_onNewLine hl hb hends (ih hrest)
  | case4 b rest hl hb q hq ih =>
      obtain ⟨hends, hrest⟩ := Bool.and_eq_true _ _ ▸ h
      have hs := startsComment_eq_false hl hb
      have hs' := startsComment_onNewLine hs z
      rw [onNewLine_cons, tokens_quoted hs hq, tokens_quoted hs' hq, split_onNewLine hends, ih hrest]
      rfl
  | case5 b rest hl hb hq ih =>
      have hs := startsComment_eq_false hl hb
      have hs' := startsComment_onNewLine hs z
      by_cases hsep : isSeparator b = true
      · rw [onNewLine_cons, tokens_separator hsep, tokens_separator hsep]
        exact ih h
      · by_cases hw : isWordByte b = true
        · exact tokens_word_onNewLine hw (ih h)
        · rw [Bool.not_eq_true] at hsep hw
          rw [onNewLine_cons, tokens_punct hs hsep hq hw, tokens_punct hs' hsep hq hw, ih h]
          rfl

end SqlTables
