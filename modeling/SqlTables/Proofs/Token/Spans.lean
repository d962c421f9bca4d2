import SqlTables.Proofs.Token.Prefix
import SqlTables.Proofs.Token.Tracks

/-!
# `SqlTables.Proofs.Token.Spans` — spans of bytes hold the tokens of the text

The end of a parenthesis is looked for byte by byte, and the span is then read as a text of its own.
Both agree with the tokens of the whole text: the same `)` closes the parenthesis, and the span holds
the tokens in front of it, up to a `--` at its end.

## Contents
- **`fromClosing_of_nextToken?`** and **`closing_step`**: the search for the end, one token at a time.
- **`tokens_fromClosing`**: what follows the end.
- **`HoldsTokens`** and **`holdsTokens_closeSpan`**: what stands in front of it.
- The instance **`LawfulSource Bytes`**.
-/

namespace SqlTables

/-! ## Bytes of words -/

theorem isSeparator_of_isWordByte {b : UInt8} (h : isWordByte b = true) : isSeparator b = false := by
  have underscore : '_'.toUInt8 = 95 := rfl
  have dollar : '$'.toUInt8 = 36 := rfl
  grind [isWordByte, isSeparator]

theorem ofByte?_of_isWordByte {b : UInt8} (h : isWordByte b = true) : Quote.ofByte? b = none := by
  cases hq : Quote.ofByte? b with
  | none => rfl
  | some q =>
      rw [← Quote.byte_of_ofByte? hq] at h
      cases q <;> exact absurd h (by decide)

/-- There is no gap in front of a byte of a word. -/
theorem skipGap_of_isWordByte {b : UInt8} (h : isWordByte b = true) (rest : Bytes) :
    skipGap (b :: rest) = b :: rest := by
  have hne : ∀ {c : UInt8}, isWordByte c = false → b ≠ c := by
    rintro c hc rfl
    rw [h] at hc
    cases hc
  have hl : ¬ startsLineComment (b :: rest) = true := by
    rw [startsLineComment_cons]
    rintro (hb | ⟨hb, _⟩)
    · exact hne (by decide) hb
    · exact hne (by decide) hb
  have hb : ¬ startsBlockComment (b :: rest) = true := by
    rw [startsBlockComment_iff]
    rintro ⟨tail, ht⟩
    exact hne (by decide) (List.cons.inj ht).1
  rw [skipGap_eq, List.dropWhile_cons_of_neg (by rw [isSeparator_of_isWordByte h]; decide),
    afterComment?, if_neg hl, if_neg hb]

/-! ## The search for the end -/

/-- The search for the end of a span passes a word byte by byte. -/
theorem fromClosing_of_isWordByte {b : UInt8} (h : isWordByte b = true) (depth : Nat)
    (rest : Bytes) : fromClosing depth (b :: rest) = fromClosing depth rest := by
  have ho : b ≠ '('.toUInt8 := by
    rintro rfl
    exact absurd h (by decide)
  have hc : b ≠ ')'.toUInt8 := by
    rintro rfl
    exact absurd h (by decide)
  rw [fromClosing_eq, skipGap_of_isWordByte h]
  simp only
  rw [if_neg ho, if_neg hc, ofByte?_of_isWordByte h]

/-- The search may enter a word anywhere. -/
theorem fromClosing_dropWhile (depth : Nat) (bs : Bytes) :
    fromClosing depth (bs.dropWhile isWordByte) = fromClosing depth bs := by
  induction bs with
  | nil => rfl
  | cons b rest ih =>
      by_cases hb : isWordByte b = true
      · rw [List.dropWhile_cons_of_pos hb, ih, fromClosing_of_isWordByte hb]
      · rw [List.dropWhile_cons_of_neg hb]

theorem skipGap_of_nextToken?_none {bs : Bytes} (h : bs.nextToken? = none) : skipGap bs = [] := by
  unfold Bytes.nextToken? at h
  split at h
  · next hs => exact hs
  · split at h
    · cases h
    · split at h <;> cases h

theorem nextToken?_of_skipGap_nil {bs : Bytes} (h : skipGap bs = []) : bs.nextToken? = none := by
  rw [Bytes.nextToken?, h]

/-- A byte that is a token of its own stands behind the gap. -/
theorem skipGap_of_nextToken?_punct {bs rest : Bytes} {b : UInt8}
    (h : bs.nextToken? = some (.punct b, rest)) : skipGap bs = b :: rest := by
  unfold Bytes.nextToken? at h
  split at h
  · cases h
  · next c tail hs =>
      rw [hs]
      split at h
      · cases h
      · split at h <;> cases h
        rfl

theorem punct_eq_sym {b : UInt8} {c : Char} : Token.punct b = .sym c ↔ b = c.toUInt8 := by
  rw [Token.sym, Token.punct.injEq]

/-- The search for the end of a parenthesis passes over the text token by token. -/
theorem fromClosing_of_nextToken? {bs rest : Bytes} {t : Token}
    (h : bs.nextToken? = some (t, rest)) (depth : Nat) :
    fromClosing depth bs =
      if t = .sym '(' then fromClosing (depth + 1) rest
      else if t = .sym ')' then
        match depth with
        | 0 => skipGap bs
        | outer + 1 => fromClosing outer rest
      else fromClosing depth rest := by
  rw [fromClosing_eq]
  unfold Bytes.nextToken? at h
  cases hs : skipGap bs with
  | nil => rw [hs] at h; cases h
  | cons b tail =>
      rw [hs] at h
      simp only at h ⊢
      cases hq : Quote.ofByte? b with
      | some q =>
          -- Neither parenthesis is a delimiter, so the token is none of them.
          rw [hq] at h
          cases h
          have hb := Quote.byte_of_ofByte? hq
          have ho : b ≠ '('.toUInt8 := by
            rw [← hb]
            cases q <;> decide
          have hc : b ≠ ')'.toUInt8 := by
            rw [← hb]
            cases q <;> decide
          rw [if_neg ho, if_neg hc, if_neg (by simp [Token.sym]), if_neg (by simp [Token.sym])]
      | none =>
          rw [hq] at h
          simp only at h ⊢
          by_cases hw : isWordByte b = true
          · -- Of a word only the first byte is passed at once.
            rw [if_pos hw] at h
            cases h
            have ho : b ≠ '('.toUInt8 := by
              rintro rfl
              exact absurd hw (by decide)
            have hc : b ≠ ')'.toUInt8 := by
              rintro rfl
              exact absurd hw (by decide)
            rw [if_neg ho, if_neg hc, if_neg (by simp [Token.sym]), if_neg (by simp [Token.sym])]
            exact (fromClosing_dropWhile depth tail).symm
          · -- A byte of its own, a parenthesis or not.
            rw [if_neg hw] at h
            cases h
            by_cases ho : b = '('.toUInt8
            · rw [if_pos ho, if_pos (punct_eq_sym.mpr ho)]
            · rw [if_neg ho, if_neg (mt punct_eq_sym.mp ho)]
              by_cases hc : b = ')'.toUInt8
              · cases depth with
                | zero => rw [if_pos hc, if_pos (punct_eq_sym.mpr hc)]
                | succ outer => rw [if_pos hc, if_pos (punct_eq_sym.mpr hc)]
              · rw [if_neg hc, if_neg (mt punct_eq_sym.mp hc)]

theorem fromClosing_of_nextToken?_none {bs : Bytes} (h : bs.nextToken? = none) (depth : Nat) :
    fromClosing depth bs = [] := by
  rw [fromClosing_eq, skipGap_of_nextToken?_none h]

/-- A token in front of the end is passed by the search in the bytes and by the one in the tokens, and both
    count the same parentheses behind it. -/
theorem closing_step {bs rest : Bytes} {t : Token} (h : bs.nextToken? = some (t, rest)) (depth : Nat) :
    (∃ inner, fromClosing depth bs = fromClosing inner rest ∧
        ∀ ts, closeSpan depth (t :: ts) = (closeSpan inner ts).map (t :: ·) id) ∨
      depth = 0 ∧ t = .sym ')' ∧ fromClosing depth bs = ')'.toUInt8 :: rest := by
  rw [fromClosing_of_nextToken? h]
  by_cases ho : t = .sym '('
  · rw [if_pos ho, ho]
    exact Or.inl ⟨depth + 1, rfl, closeSpan_open depth⟩
  · rw [if_neg ho]
    by_cases hc : t = .sym ')'
    · rw [if_pos hc]
      subst hc
      cases depth with
      | zero => exact Or.inr ⟨rfl, rfl, skipGap_of_nextToken?_punct h⟩
      | succ outer => exact Or.inl ⟨outer, rfl, closeSpan_close outer⟩
    · rw [if_neg hc]
      exact Or.inl ⟨depth, rfl, closeSpan_other ho hc depth⟩

/-! ## Both sides of the end -/

/-- The tokens behind the end of a span in a text are those behind the end of the span in its tokens. The
    induction is along the tokens, with the level left open. -/
theorem tokens_fromClosing (depth : Nat) (bs : Bytes) :
    Bytes.tokens ((fromClosing depth bs).drop 1) = (closeSpan depth bs.tokens).2 := by
  fun_induction Bytes.tokens bs generalizing depth with
  | case2 bs h =>
      rw [fromClosing_of_nextToken?_none h]
      exact tokens_of_nextToken?_none (by decide +kernel)
  | case1 bs t rest h ih =>
      rcases closing_step h depth with ⟨inner, hf, hs⟩ | ⟨rfl, rfl, hf⟩
      · rw [hf, hs]
        exact ih inner
      · rw [hf, closeSpan_end, List.drop_succ_cons, List.drop_zero]

/-- The tokens that bytes hold in a text that may go on with a `)`: those that they hold as a text of their
    own, and two minus signs behind them if the bytes end in a `--`, which is a comment there. -/
def HoldsTokens (a : Bytes) (ts : List Token) : Prop :=
  ts = a.tokens ∨ ascii "--" <:+ a ∧ ts = a.tokens ++ [.sym '-', .sym '-']

/-- A token is held by a text whose next token it is, if what is left holds the other ones. -/
theorem holdsTokens_cons {a m : Bytes} {t : Token} {ts : List Token}
    (h : a.nextToken? = some (t, m)) (hm : HoldsTokens m ts) : HoldsTokens a (t :: ts) := by
  unfold HoldsTokens
  rw [tokens_of_nextToken? h]
  rcases hm with rfl | ⟨hdashes, rfl⟩
  · exact Or.inl rfl
  · -- The dashes that were cut stand at the end of the whole text as well.
    obtain ⟨b, tail, hgap, hsuffix⟩ := nextToken?_suffix h
    have htail : tail <:+ a := (List.suffix_cons b tail).trans (hgap ▸ skipGap_suffix a)
    exact Or.inr ⟨hdashes.trans (hsuffix.trans htail), rfl⟩

/-- Bytes that hold nothing but a `--` which the rest of the text keeps from being a comment. -/
theorem holdsTokens_dashes {a z : Bytes} {ts : List Token}
    (h : (a ++ z).nextToken? = some (.sym '-', ascii "-" ++ z)) (ha : a.nextToken? = none)
    (hts : HoldsTokens (ascii "-") ts) : HoldsTokens a (.sym '-' :: ts) := by
  have hgap : skipGap (a ++ z) = '-'.toUInt8 :: (ascii "-" ++ z) := skipGap_of_nextToken?_punct h
  have hsuffix : ascii "--" ++ z <:+ a ++ z := by
    have hall := skipGap_suffix (a ++ z)
    rwa [hgap] at hall
  obtain ⟨front, hfront⟩ := hsuffix
  rw [← List.append_assoc] at hfront
  right
  refine ⟨⟨front, List.append_cancel_right hfront⟩, ?_⟩
  rw [tokens_of_nextToken?_none ha]
  rcases hts with rfl | ⟨hlong, -⟩
  · rw [show Bytes.tokens (ascii "-") = [.sym '-'] by decide +kernel]
    rfl
  · exact absurd hlong.length_le (by decide)

/-- The bytes in front of the end of a parenthesis hold the tokens in front of it. -/
theorem holdsTokens_closeSpan {depth : Nat} {bs a : Bytes} (h : bs = a ++ fromClosing depth bs) :
    HoldsTokens a (closeSpan depth bs.tokens).1 := by
  fun_induction Bytes.tokens bs generalizing depth a with
  | case2 bs hn =>
      rw [fromClosing_of_nextToken?_none hn, List.append_nil] at h
      left
      rw [← h, tokens_of_nextToken?_none hn]
      rfl
  | case1 bs t rest hn ih =>
      rcases closing_step hn depth with ⟨inner, hf, hs⟩ | ⟨rfl, rfl, hf⟩
      · -- The token stands in front of the end, so it is read in the same way without what follows.
        obtain ⟨m, hm⟩ := fromClosing_suffix inner rest
        have hcut : (a ++ fromClosing inner rest).nextToken? =
            some (t, m ++ fromClosing inner rest) := by
          rw [hm, ← hf, ← h]
          exact hn
        have htail := ih hm.symm
        rw [hs]
        rcases nextToken?_of_append hcut with ha | ⟨rfl, rfl, ha⟩
        · exact holdsTokens_cons ha htail
        · exact holdsTokens_dashes hcut ha htail
      · -- The end itself: only a gap stands in front of it.
        have hgap := skipGap_of_nextToken?_punct hn
        rw [hf] at h
        rw [h] at hgap
        have hpar : isSeparator ')'.toUInt8 ≠ true := by decide
        rcases skipGap_of_append (x := []) hgap (Or.inr (List.dropWhile_cons_of_neg hpar)) with
          ha | ⟨hd, _⟩
        · left
          rw [tokens_of_nextToken?_none (nextToken?_of_skipGap_nil ha), closeSpan_end]
        · exact absurd hd (by decide)

/-- Tokens that a text holds run along with its own tokens. -/
theorem tracks_of_holdsTokens {a : Bytes} {ts : List Token} (h : HoldsTokens a ts) :
    Tracks Eq a.tokens ts := by
  have hdashes : Trailing [.sym '-', .sym '-'] :=
    trailing_cons.mpr ⟨rfl, trailing_cons.mpr ⟨rfl, trailing_nil⟩⟩
  rcases h with rfl | ⟨-, rfl⟩
  · exact tracks_refl (fun _ => rfl) _
  · induction a.tokens with
    | nil => exact .trail trailing_nil hdashes
    | cons t ts ih => exact .next rfl ih

/-- A text is cut at the end of its span. -/
theorem append_fromClosing (bs : Bytes) :
    bs = bs.take (spanLength bs) ++ fromClosing 0 bs := by
  obtain ⟨a, ha⟩ := fromClosing_suffix 0 bs
  have hlen := congrArg List.length ha
  rw [List.length_append] at hlen
  have hspan : spanLength bs = a.length := by
    rw [spanLength]
    omega
  have htake : bs.take a.length = a := by
    rw [← ha, List.take_left']
    rfl
  rw [hspan, htake, ha]

instance : LawfulSource Bytes where
  tokens_span bs := by
    rw [TokenSource.tokens_bytes, TokenSource.tokens_bytes]
    exact tracks_of_holdsTokens (holdsTokens_closeSpan (append_fromClosing bs))
  tokens_afterSpan bs := by
    rw [TokenSource.tokens_bytes, TokenSource.tokens_bytes]
    exact tokens_fromClosing 0 bs

end SqlTables
