import SqlTables.Keyword
import SqlTables.Name
import SqlTables.Token.Lexer

/-!
# `SqlTables.Proofs.Token.Upper` — texts in upper case are cut into the same tokens

Letters in lower case are put in upper case in a whole text. None of the marks that cut a text into tokens is
a letter, and both forms of a letter belong to words, so the tokens are those of the text in upper case
themselves: every routine of the lexer commutes with `map upper`.

## Contents
- **Single bytes**: `upper_eq_iff` and the classes of bytes that `upper` keeps.
- **Gaps** and **quoted texts**: `skipGap_map_upper`, `split_map_upper`, `collapse_map_upper`.
- **`Token.upper`** and **`tokens_map_upper`**: the tokens of a text.
- **What a token is** does not depend on the case of its letters.
-/

namespace SqlTables

variable {b c : UInt8} {bs : Bytes}

/-! ## Single bytes -/

/-- A letter of either case. -/
def IsLetter (b : UInt8) : Prop := (0x41 ≤ b ∧ b ≤ 0x5a) ∨ (0x61 ≤ b ∧ b ≤ 0x7a)

instance (b : UInt8) : Decidable (IsLetter b) := inferInstanceAs (Decidable (_ ∨ _))

/-- A byte that is no letter is the upper-case form of itself only. -/
theorem upper_eq_iff (hc : ¬ IsLetter c) : upper b = c ↔ b = c := by
  unfold IsLetter at hc
  unfold upper
  grind

theorem upper_upper (b : UInt8) : upper (upper b) = upper b := by
  unfold upper
  grind

theorem map_upper_upper (bs : Bytes) : (bs.map upper).map upper = bs.map upper := by
  rw [List.map_map]
  exact List.map_congr_left fun b _ => upper_upper b

theorem isSeparator_upper (b : UInt8) : isSeparator (upper b) = isSeparator b := by
  unfold upper isSeparator
  grind

/-- Both forms of a letter belong to words. -/
theorem isWordByte_upper (b : UInt8) : isWordByte (upper b) = isWordByte b := by
  have underscore : '_'.toUInt8 = 95 := by decide
  have dollar : '$'.toUInt8 = 36 := by decide
  unfold upper isWordByte
  grind

theorem isWordByte_of_isLetter (h : IsLetter b) : isWordByte b = true := by
  unfold IsLetter at h
  unfold isWordByte
  grind

/-- A byte of its own is its own upper-case form. -/
theorem upper_of_isWordByte_false (h : isWordByte b = false) : upper b = b := by
  have hletter : ¬ IsLetter b := by
    intro hl
    rw [isWordByte_of_isLetter hl] at h
    cases h
  exact (upper_eq_iff hletter).mpr rfl

theorem not_isLetter_byte (q : Quote) : ¬ IsLetter q.byte := by
  cases q <;> decide

/-- A byte and its upper-case form open the same quoted text, or none. -/
theorem ofByte?_upper (b : UInt8) : Quote.ofByte? (upper b) = Quote.ofByte? b := by
  simp only [Quote.ofByte?, upper_eq_iff (not_isLetter_byte _)]

/-- The marks of a quoted text, its delimiter and the backslash, are no letters. -/
theorem isMark_upper (q : Quote) (b : UInt8) : q.isMark (upper b) = q.isMark b := by
  have hbyte := upper_eq_iff (b := b) (not_isLetter_byte q)
  have hslash := upper_eq_iff (b := b) (c := '\\'.toUInt8) (by decide)
  rw [Bool.eq_iff_iff]
  simp only [Quote.isMark, Bool.or_eq_true, Bool.and_eq_true, beq_iff_eq, hbyte, hslash]

/-! ## Gaps -/

/-- A pattern without letters starts a text in upper case if and only if it starts the text. -/
theorem isPrefixOf_map_upper {pat : Bytes} (h : pat.all (¬ IsLetter ·) = true) (bs : Bytes) :
    pat.isPrefixOf (bs.map upper) = pat.isPrefixOf bs := by
  induction pat generalizing bs with
  | nil => simp
  | cons c pat ih =>
      simp only [List.all_cons, Bool.and_eq_true, decide_eq_true_eq] at h
      obtain ⟨hc, hpat⟩ := h
      cases bs with
      | nil => rfl
      | cons b bs =>
          have hb : (c == upper b) = (c == b) := by
            rw [Bool.eq_iff_iff, beq_iff_eq, beq_iff_eq, eq_comm, upper_eq_iff hc, eq_comm]
          simp only [List.map_cons, List.isPrefixOf, hb, ih hpat]

/-- A pattern without letters is found at the same place. -/
theorem offset?_map_upper {pat : Bytes} (h : pat.all (¬ IsLetter ·) = true) (bs : Bytes) :
    Bytes.offset? pat (bs.map upper) = Bytes.offset? pat bs := by
  induction bs with
  | nil => rfl
  | cons b bs ih =>
      have hhere := isPrefixOf_map_upper h (b :: bs)
      rw [List.map_cons] at hhere
      simp only [List.map_cons, Bytes.offset?, hhere, ih]

/-- The marks of a comment to the end of the line are no letters. -/
theorem startsLineComment_map_upper (bs : Bytes) :
    startsLineComment (bs.map upper) = startsLineComment bs := by
  have hhash : (ascii "#").isPrefixOf (bs.map upper) = (ascii "#").isPrefixOf bs :=
    isPrefixOf_map_upper (by decide) bs
  have hdashes : (ascii "--").isPrefixOf (bs.map upper) = (ascii "--").isPrefixOf bs :=
    isPrefixOf_map_upper (by decide) bs
  simp only [startsLineComment, hhash, hdashes, ← List.map_drop, List.head?_map, Option.all_map,
    isSeparator_upper]

theorem startsBlockComment_map_upper (bs : Bytes) :
    startsBlockComment (bs.map upper) = startsBlockComment bs :=
  isPrefixOf_map_upper (by decide) bs

theorem afterLine_map_upper (bs : Bytes) : afterLine (bs.map upper) = (afterLine bs).map upper := by
  have hline : ((· == '\n'.toUInt8) ∘ upper) = (· == '\n'.toUInt8) := by
    funext b
    rw [Function.comp_apply, Bool.eq_iff_iff, beq_iff_eq, beq_iff_eq, upper_eq_iff (by decide)]
  unfold afterLine
  rw [List.findIdx?_map, hline]
  cases bs.findIdx? (· == '\n'.toUInt8) with
  | none => rfl
  | some n => simp only [List.map_drop]

theorem afterBlock_map_upper (bs : Bytes) :
    afterBlock (bs.map upper) = (afterBlock bs).map upper := by
  unfold afterBlock
  rw [offset?_map_upper (by decide)]
  cases Bytes.offset? (ascii "*/") bs with
  | none => rfl
  | some n => simp only [List.map_drop]

theorem afterComment?_map_upper (bs : Bytes) :
    afterComment? (bs.map upper) = (afterComment? bs).map (·.map upper) := by
  unfold afterComment?
  rw [startsLineComment_map_upper, startsBlockComment_map_upper, afterLine_map_upper,
    ← List.map_drop, afterBlock_map_upper]
  by_cases hl : startsLineComment bs = true
  · simp only [hl, if_true, Option.map_some]
  · by_cases hb : startsBlockComment bs = true
    · simp only [hl, hb, if_true, if_false, Bool.false_eq_true, Option.map_some]
    · simp only [hl, hb, if_false, Bool.false_eq_true, Option.map_none]

/-- A class of bytes that holds both forms of a letter or none. -/
theorem dropWhile_map_upper {p : UInt8 → Bool} (hp : ∀ b, p (upper b) = p b) (bs : Bytes) :
    (bs.map upper).dropWhile p = (bs.dropWhile p).map upper := by
  have hcomp : p ∘ upper = p := funext hp
  rw [List.dropWhile_map, hcomp]

theorem takeWhile_map_upper {p : UInt8 → Bool} (hp : ∀ b, p (upper b) = p b) (bs : Bytes) :
    (bs.map upper).takeWhile p = (bs.takeWhile p).map upper := by
  have hcomp : p ∘ upper = p := funext hp
  rw [List.takeWhile_map, hcomp]

theorem skipGap_map_upper (bs : Bytes) : skipGap (bs.map upper) = (skipGap bs).map upper := by
  fun_induction skipGap bs with
  | case1 bs rest h ih =>
      rw [skipGap_eq, dropWhile_map_upper isSeparator_upper, afterComment?_map_upper, h]
      exact ih
  | case2 bs h =>
      rw [skipGap_eq, dropWhile_map_upper isSeparator_upper, afterComment?_map_upper, h]
      rfl

/-! ## Quoted texts -/

/-- A quoted text closes at the same place. The induction is along its marks. -/
theorem closing?_map_upper (q : Quote) (bs : Bytes) :
    q.closing? (bs.map upper) = q.closing? bs := by
  have hmark : q.isMark ∘ upper = q.isMark := funext (isMark_upper q)
  fun_induction Quote.closing? q bs with
  | case1 bs hf => rw [Quote.closing?_eq, List.findIdx?_map, hmark, hf]
  | case2 bs n hf hd =>
      rw [Quote.closing?_eq, List.findIdx?_map, hmark, hf]
      simp only [← List.map_drop, hd, List.map_nil]
  | case3 bs n hf b rest hd hb ih =>
      -- The byte that is escaped or doubled may be a letter, the mark in front of it is none.
      have hb' : upper b = '\\'.toUInt8 ∨ (rest.map upper).head? = some q.byte := by
        simpa [upper_eq_iff, not_isLetter_byte, List.head?_map,
          show ¬ IsLetter '\\'.toUInt8 by decide] using hb
      rw [Quote.closing?_eq, List.findIdx?_map, hmark, hf]
      simp only [← List.map_drop, hd, List.map_cons]
      rw [if_pos hb', ih]
  | case4 bs n hf b rest hd hb =>
      have hb' : ¬ (upper b = '\\'.toUInt8 ∨ (rest.map upper).head? = some q.byte) := by
        simpa [upper_eq_iff, not_isLetter_byte, List.head?_map,
          show ¬ IsLetter '\\'.toUInt8 by decide] using hb
      rw [Quote.closing?_eq, List.findIdx?_map, hmark, hf]
      simp only [← List.map_drop, hd, List.map_cons]
      rw [if_neg hb']

theorem split_map_upper (q : Quote) (bs : Bytes) :
    q.split (bs.map upper) = ((q.split bs).1.map upper, (q.split bs).2.map upper) := by
  unfold Quote.split
  rw [closing?_map_upper]
  cases q.closing? bs with
  | none => rfl
  | some n => simp only [List.map_take, List.map_drop]

/-- The same doubled delimiters are collapsed. -/
theorem collapse_map_upper (q : Quote) (bs : Bytes) :
    q.collapse (bs.map upper) = (q.collapse bs).map upper := by
  have hbyte : ∀ b, upper b = q.byte ↔ b = q.byte := fun b => upper_eq_iff (not_isLetter_byte q)
  fun_induction Quote.collapse q bs with
  | case1 => rfl
  | case2 b => rfl
  | case3 b c rest h ih =>
      simp only [List.map_cons, Quote.collapse, hbyte]
      rw [if_pos h, ih]
  | case4 b c rest h ih =>
      simp only [List.map_cons, Quote.collapse, hbyte] at ih ⊢
      rw [if_neg h, ih]

/-! ## Tokens -/

/-- A token with its letters in upper case. -/
def Token.upper : Token → Token
  | word text => word (text.map SqlTables.upper)
  | quoted q content => quoted q (content.map SqlTables.upper)
  | punct b => punct b

/-- The next token of a text in upper case is the next token in upper case. -/
theorem nextToken?_map_upper (bs : Bytes) :
    Bytes.nextToken? (bs.map upper) =
      bs.nextToken?.map fun (t, rest) => (t.upper, rest.map upper) := by
  unfold Bytes.nextToken?
  rw [skipGap_map_upper]
  cases skipGap bs with
  | nil => rfl
  | cons b rest =>
      simp only [List.map_cons, ofByte?_upper, isWordByte_upper]
      cases hq : Quote.ofByte? b with
      | some q => simp only [split_map_upper, Option.map_some, Token.upper]
      | none =>
          by_cases hw : isWordByte b = true
          · simp only [hw, if_true, Option.map_some, Token.upper, List.map_cons,
              takeWhile_map_upper isWordByte_upper, dropWhile_map_upper isWordByte_upper]
          · rw [Bool.not_eq_true] at hw
            simp only [hw, Bool.false_eq_true, if_false, Option.map_some, Token.upper,
              upper_of_isWordByte_false hw]

/-- The tokens of a text in upper case are its tokens in upper case. -/
theorem tokens_map_upper (bs : Bytes) : Bytes.tokens (bs.map upper) = bs.tokens.map Token.upper := by
  fun_induction Bytes.tokens bs with
  | case1 bs t rest h ih =>
      have hnext := nextToken?_map_upper bs
      rw [h, Option.map_some] at hnext
      rw [tokens_of_nextToken? hnext, ih, List.map_cons]
  | case2 bs h =>
      have hnext := nextToken?_map_upper bs
      rw [h, Option.map_none] at hnext
      rw [tokens_of_nextToken?_none hnext, List.map_nil]

/-! ## What a token is -/

namespace Token

/-- The case of letters does not make an identifier. -/
theorem isIdentifier_upper (t : Token) : t.upper.isIdentifier = t.isIdentifier := by
  cases t with
  | word text => rfl
  | quoted q content => cases q <;> rfl
  | punct b => rfl

/-- A keyword is one in either case. -/
theorem keyword?_upper (t : Token) : t.upper.keyword? = t.keyword? := by
  cases t with
  | word text => exact Keyword.ofWord?_congr (map_upper_upper text)
  | quoted q content => rfl
  | punct b => rfl

theorem isWordOf_upper (t : Token) (names : List String) :
    t.upper.isWordOf names = t.isWordOf names := by
  cases t with
  | word text =>
      have hname : ∀ name, (ascii name).sameWord (text.map SqlTables.upper) =
          (ascii name).sameWord text := by
        intro name
        rw [Bytes.sameWord, map_upper_upper, Bytes.sameWord]
      simp only [upper, isWordOf, oneOf, hname]
  | quoted q content => rfl
  | punct b => rfl

/-- Symbols have no case. -/
theorem upper_eq_sym_iff (t : Token) (c : Char) : t.upper = .sym c ↔ t = .sym c := by
  cases t <;> simp [upper, sym]

/-- The spelling of a name in upper case is its spelling in upper case. -/
theorem spelling_upper (t : Token) : t.upper.spelling = t.spelling.map SqlTables.upper := by
  cases t with
  | word text => rfl
  | quoted q content => exact collapse_map_upper q content
  | punct b => rfl

end Token

end SqlTables
