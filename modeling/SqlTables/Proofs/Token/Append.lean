import SqlTables.Proofs.Token.Gaps
import SqlTables.Proofs.Token.Spans

/-!
# `SqlTables.Proofs.Token.Append` — a text that goes on behind a token

A token that is not the last one of a text stays when something is put behind the text, and so does the end
of a parenthesis. The last token stays if it is a byte of its own that cannot open a comment.

Throughout, `a` is the text and `z` what is put behind it.

## Contents
- **Gaps**: `afterComment?_append`, `skipGap_append`.
- **Quoted texts**: `closing?_append`, `split_append`.
- **Tokens and spans**: `nextToken?_append`, `fromClosing_append`, `enclosed_append`.
-/

namespace SqlTables

variable {a rest : Bytes} {b : UInt8} {q : Quote}

/-! ## Gaps -/

/-- A byte that opens a comment only together with the bytes behind it. -/
def opensComment (b : UInt8) : Prop := b = '-'.toUInt8 ∨ b = '/'.toUInt8

/-- A line that ends in front of the last byte ends at the same place in a longer text. -/
theorem afterLine_append (h : afterLine a ≠ []) (z : Bytes) :
    afterLine (a ++ z) = afterLine a ++ z := by
  unfold afterLine at h ⊢
  cases hn : a.findIdx? (· == '\n'.toUInt8) with
  | none =>
      rw [hn] at h
      exact absurd rfl h
  | some n =>
      obtain ⟨hlt, _⟩ := List.findIdx?_eq_some_iff_getElem.mp hn
      rw [List.findIdx?_append, hn, Option.some_or]
      exact List.drop_append_of_le_length hlt

/-- A comment in `/*` that is closed is closed at the same place in a longer text. -/
theorem afterBlock_append (h : (Bytes.offset? (ascii "*/") a).isSome = true) (z : Bytes) :
    afterBlock (a ++ z) = afterBlock a ++ z := by
  obtain ⟨n, hn⟩ := Option.isSome_iff_exists.mp h
  have hle := offset?_le hn
  unfold afterBlock
  rw [hn, (offset?_of_append hle).mpr hn]
  exact List.drop_append_of_le_length hle

/-- Something is left behind a comment in `/*` only if it is closed. -/
theorem offset?_isSome_of_afterBlock (h : afterBlock a ≠ []) :
    (Bytes.offset? (ascii "*/") a).isSome = true := by
  unfold afterBlock at h
  cases hn : Bytes.offset? (ascii "*/") a with
  | none =>
      rw [hn] at h
      exact absurd rfl h
  | some n => rfl

/-- Two dashes at the end of the text are the only line comment that what follows can undo. -/
theorem startsLineComment_append (h : startsLineComment (b :: rest) = true)
    (hne : afterLine (b :: rest) ≠ []) (z : Bytes) :
    startsLineComment (b :: (rest ++ z)) = true := by
  rw [startsLineComment_cons] at h ⊢
  rcases h with hb | ⟨rfl, tail, rfl, hsep⟩
  · exact Or.inl hb
  · cases tail with
    | nil => exact absurd (by decide) hne
    | cons c tail => exact Or.inr ⟨rfl, c :: (tail ++ z), rfl, hsep⟩

/-- More text makes a comment of no byte but a dash at the end. -/
theorem startsLineComment_of_append_cons (h : startsLineComment (b :: (rest ++ z)) = true)
    (hlast : rest ≠ [] ∨ ¬ opensComment b) : startsLineComment (b :: rest) = true := by
  rw [startsLineComment_cons] at h ⊢
  rcases h with hb | ⟨hb, tail, htail, hsep⟩
  · exact Or.inl hb
  · -- The second byte is there already, and the end of the text counts as the separator behind it.
    cases rest with
    | nil => exact absurd (Or.inl hb) (hlast.resolve_left (fun hne => hne rfl))
    | cons c rest =>
        obtain ⟨rfl, rfl⟩ := List.cons.inj htail
        refine Or.inr ⟨hb, rest, rfl, ?_⟩
        cases rest with
        | nil => rfl
        | cons d rest => exact hsep

/-- More text makes a comment of no byte but a slash at the end. -/
theorem startsBlockComment_of_append_cons (h : startsBlockComment (b :: (rest ++ z)) = true)
    (hlast : rest ≠ [] ∨ ¬ opensComment b) : startsBlockComment (b :: rest) = true := by
  obtain ⟨tail, ht⟩ := startsBlockComment_iff.mp h
  obtain ⟨rfl, hstar⟩ := List.cons.inj ht
  cases rest with
  | nil => exact absurd (Or.inr rfl) (hlast.resolve_left (fun hne => hne rfl))
  | cons c rest =>
      obtain ⟨rfl, _⟩ := List.cons.inj hstar
      exact startsBlockComment_iff.mpr ⟨rest, rfl⟩

/-- A comment behind which the text goes on ends at the same place. -/
theorem afterComment?_append {m : Bytes} (h : afterComment? (b :: rest) = some m) (hm : m ≠ [])
    (z : Bytes) : afterComment? (b :: (rest ++ z)) = some (m ++ z) := by
  unfold afterComment? at h ⊢
  by_cases hl : startsLineComment (b :: rest) = true
  · rw [if_pos hl, Option.some.injEq] at h
    subst h
    rw [if_pos (startsLineComment_append hl hm z)]
    exact congrArg some (afterLine_append hm z)
  · rw [if_neg hl] at h
    by_cases hb : startsBlockComment (b :: rest) = true
    · rw [if_pos hb, Option.some.injEq] at h
      subst h
      obtain ⟨tail, ht⟩ := startsBlockComment_iff.mp hb
      obtain ⟨rfl, rfl⟩ := List.cons.inj ht
      have hbody := afterBlock_append (offset?_isSome_of_afterBlock hm) z
      exact (afterComment?_blockMark (tail ++ z)).trans (congrArg some hbody)
    · rw [if_neg hb] at h
      cases h

/-- Where no comment starts, none starts in a longer text, unless the text ends in a byte that may open
    one. -/
theorem afterComment?_append_none (h : afterComment? (b :: rest) = none)
    (hlast : rest ≠ [] ∨ ¬ opensComment b) (z : Bytes) : afterComment? (b :: (rest ++ z)) = none := by
  unfold afterComment? at h ⊢
  by_cases hl : startsLineComment (b :: rest) = true
  · rw [if_pos hl] at h
    cases h
  · by_cases hb : startsBlockComment (b :: rest) = true
    · rw [if_neg hl, if_pos hb] at h
      cases h
    · rw [if_neg (fun h' => hl (startsLineComment_of_append_cons h' hlast)),
        if_neg (fun h' => hb (startsBlockComment_of_append_cons h' hlast))]

theorem dropWhile_append_cons {p : UInt8 → Bool} (h : a.dropWhile p = b :: rest) (z : Bytes) :
    (a ++ z).dropWhile p = b :: (rest ++ z) := by
  rw [List.dropWhile_append, h]
  rfl

/-- A gap that ends in the text ends there in a longer one, unless the byte behind it is the last one and may
    open a comment. -/
theorem skipGap_append (h : skipGap a = b :: rest) (hlast : rest ≠ [] ∨ ¬ opensComment b)
    (z : Bytes) : skipGap (a ++ z) = b :: (rest ++ z) := by
  fun_induction skipGap a with
  | case1 a m hc ih =>
      have hm : m ≠ [] := by
        rintro rfl
        have hnil : skipGap [] = [] := List.suffix_nil.mp (skipGap_suffix [])
        rw [hnil] at h
        cases h
      cases hd : a.dropWhile isSeparator with
      | nil =>
          rw [hd] at hc
          exact absurd (afterComment?_length hc) (Nat.not_lt_zero _)
      | cons c tail =>
          rw [hd] at hc
          rw [skipGap_eq, dropWhile_append_cons hd, afterComment?_append hc hm]
          exact ih h
  | case2 a hc =>
      rw [h] at hc
      rw [skipGap_eq, dropWhile_append_cons h, afterComment?_append_none hc hlast]

theorem nextToken?_separator (hb : isSeparator b = true) (rest : Bytes) :
    Bytes.nextToken? (b :: rest) = Bytes.nextToken? rest := by
  rw [Bytes.nextToken?, Bytes.nextToken?, skipGap_separator hb]

/-! ## Quoted texts -/

/-- A mark that is found in the text is found there in a longer one, and more stands behind it. -/
theorem mark_append {p : UInt8 → Bool} {n : Nat} (hf : a.findIdx? p = some n)
    (hd : a.drop n = b :: rest) (z : Bytes) :
    (a ++ z).findIdx? p = some n ∧ (a ++ z).drop n = b :: (rest ++ z) := by
  have hle : n ≤ a.length := by
    obtain ⟨hlt, _⟩ := List.findIdx?_eq_some_iff_getElem.mp hf
    exact Nat.le_of_lt hlt
  constructor
  · rw [List.findIdx?_append, hf, Option.some_or]
  · rw [List.drop_append_of_le_length hle, hd]
    rfl

/-- A closing delimiter stays, unless it comes last and what follows doubles it. -/
theorem closing?_append {n : Nat} (h : q.closing? a = some n) {z : Bytes}
    (hz : n + 1 < a.length ∨ z.head? ≠ some q.byte) : q.closing? (a ++ z) = some n := by
  fun_induction Quote.closing? q a generalizing n with
  | case1 a hf => cases h
  | case2 a m hf hd => cases h
  | case3 a m hf b rest hd hb ih =>
      obtain ⟨k, hk, rfl⟩ := Option.map_eq_some_iff.mp h
      obtain ⟨hf', hd'⟩ := mark_append hf hd z
      have hlen := congrArg List.length hd
      rw [Quote.closing?_eq, hf']
      simp only
      rw [hd']
      cases rest with
      | nil =>
          -- The last byte is escaped by nothing that follows it, so nothing closes.
          exact absurd (Quote.lt_length_of_closing? hk) (Nat.not_lt_zero _)
      | cons c rest =>
          have hb' : b = '\\'.toUInt8 ∨ (c :: rest ++ z).head? = some q.byte := hb
          have hz' : k + 1 < rest.length ∨ z.head? ≠ some q.byte := by
            refine hz.imp_left (fun hlt => ?_)
            simp only [List.length_drop, List.length_cons] at hlen
            omega
          simp only
          rw [if_pos hb', List.cons_append, List.drop_succ_cons, List.drop_zero]
          exact congrArg (Option.map _) (ih hk hz')
  | case4 a m hf b rest hd hb =>
      cases h
      obtain ⟨hf', hd'⟩ := mark_append hf hd z
      have hlen := congrArg List.length hd
      rw [Quote.closing?_eq, hf']
      simp only
      rw [hd']
      have hb' : ¬ (b = '\\'.toUInt8 ∨ (rest ++ z).head? = some q.byte) := by
        cases rest with
        | nil =>
            have hhead : z.head? ≠ some q.byte := by
              refine hz.resolve_left (fun hlt => ?_)
              simp only [List.length_drop, List.length_cons, List.length_nil] at hlen
              omega
            rintro (h' | h')
            · exact hb (Or.inl h')
            · exact hhead h'
        | cons c rest => exact hb
      simp only
      rw [if_neg hb']

/-- A quoted text that is closed is cut at the same place in a longer text, unless that text doubles the
    delimiter. -/
theorem split_append {n : Nat} (h : q.closing? a = some n) {z : Bytes}
    (hz : n + 1 < a.length ∨ z.head? ≠ some q.byte) :
    q.split (a ++ z) = ((q.split a).1, (q.split a).2 ++ z) := by
  have hlt := Quote.lt_length_of_closing? h
  rw [Quote.split, Quote.split, h, closing?_append h hz]
  refine Prod.ext (List.take_append_of_le_length (Nat.le_of_lt hlt)) ?_
  exact List.drop_append_of_le_length hlt

/-- A quoted text behind which the text goes on ends at the same place. -/
theorem split_append_of_ne_nil (h : (q.split a).2 ≠ []) (z : Bytes) :
    q.split (a ++ z) = ((q.split a).1, (q.split a).2 ++ z) := by
  cases hn : q.closing? a with
  | none =>
      rw [Quote.split, hn] at h
      exact absurd rfl h
  | some n =>
      rw [Quote.split, hn] at h
      refine split_append hn (Or.inl ?_)
      exact Nat.lt_of_not_le fun hle => h (List.drop_eq_nil_of_le hle)

/-! ## Tokens and spans -/

/-- No byte of a word may open a comment. -/
theorem not_opensComment_of_isWordByte (h : isWordByte b = true) : ¬ opensComment b := by
  rintro (rfl | rfl)
  · exact absurd h (by decide)
  · exact absurd h (by decide)

/-- A token behind which the text goes on is read in the same way, and so is a last byte of its own that
    opens no comment. -/
theorem nextToken?_append {t : Token} (h : a.nextToken? = some (t, rest))
    (hlast : rest ≠ [] ∨ ∃ b, t = .punct b ∧ ¬ opensComment b) (z : Bytes) :
    (a ++ z).nextToken? = some (t, rest ++ z) := by
  unfold Bytes.nextToken? at h
  cases hs : skipGap a with
  | nil =>
      rw [hs] at h
      cases h
  | cons b tail =>
      rw [hs] at h
      simp only at h
      have htail : rest <:+ tail → rest ≠ [] → tail ≠ [] := by
        rintro hsuf hne rfl
        exact hne (List.suffix_nil.mp hsuf)
      cases hq : Quote.ofByte? b with
      | some q =>
          rw [hq] at h
          cases h
          -- More text follows the closing delimiter, so it is no end of the text that closes.
          have hne : (q.split tail).2 ≠ [] := hlast.resolve_right (by rintro ⟨b, ⟨⟩, _⟩)
          have hgap := skipGap_append hs (Or.inl (htail (Quote.split_rest_suffix q tail) hne)) z
          rw [Bytes.nextToken?, hgap]
          simp only
          rw [hq]
          simp only
          rw [split_append_of_ne_nil hne]
      | none =>
          rw [hq] at h
          simp only at h
          by_cases hw : isWordByte b = true
          · rw [if_pos hw] at h
            cases h
            have hne : tail.dropWhile isWordByte ≠ [] := hlast.resolve_right (by rintro ⟨b, ⟨⟩, _⟩)
            have hgap := skipGap_append hs (Or.inr (not_opensComment_of_isWordByte hw)) z
            -- The byte behind the word ends it here as well as in the longer text.
            obtain ⟨c, more, hc⟩ := List.exists_cons_of_ne_nil hne
            have htake : (tail ++ z).takeWhile isWordByte = tail.takeWhile isWordByte :=
              (takeWhile_of_append (m := tail.dropWhile isWordByte)
                (by rw [hc, dropWhile_append_cons hc]; rfl)).1
            rw [Bytes.nextToken?, hgap]
            simp only
            rw [hq]
            simp only
            rw [if_pos hw, htake, dropWhile_append_cons hc, hc]
            rfl
          · rw [if_neg hw] at h
            cases h
            -- A dash or a slash at the end might open a comment with what follows.
            have hlast' : rest ≠ [] ∨ ¬ opensComment b := by
              refine hlast.imp_right ?_
              rintro ⟨c, hc, hopens⟩
              rw [Token.punct.inj hc]
              exact hopens
            rw [Bytes.nextToken?, skipGap_append hs hlast' z]
            simp only
            rw [hq]
            simp only
            rw [if_neg hw]

/-- The end of a parenthesis stays where it is. -/
theorem fromClosing_append {depth : Nat} (h : fromClosing depth a ≠ []) (z : Bytes) :
    fromClosing depth (a ++ z) = fromClosing depth a ++ z := by
  fun_induction Bytes.tokens a generalizing depth with
  | case2 a hn => exact absurd (fromClosing_of_nextToken?_none hn depth) h
  | case1 a t rest hn ih =>
      have hstep := fromClosing_of_nextToken? hn depth
      have hempty : ∀ d, fromClosing d [] = [] :=
        fun d => List.suffix_nil.mp (fromClosing_suffix d [])
      rw [hstep] at h
      -- What is left behind the token is empty only if the token is the end itself.
      have hlast : rest ≠ [] ∨ ∃ b, t = .punct b ∧ ¬ opensComment b := by
        by_cases hc : t = .sym ')'
        · refine Or.inr ⟨')'.toUInt8, hc, ?_⟩
          rintro (he | he)
          · exact absurd he (by decide)
          · exact absurd he (by decide)
        · left
          rintro rfl
          rw [hempty, hempty, if_neg hc, ite_self] at h
          exact h rfl
      rw [hstep, fromClosing_of_nextToken? (nextToken?_append hn hlast z)]
      by_cases ho : t = .sym '('
      · rw [if_pos ho] at h ⊢
        rw [if_pos ho]
        exact ih h
      · rw [if_neg ho] at h ⊢
        rw [if_neg ho]
        by_cases hc : t = .sym ')'
        · rw [if_pos hc] at h ⊢
          rw [if_pos hc]
          cases depth with
          | zero =>
              subst hc
              have hgap := skipGap_of_nextToken?_punct hn
              simp only
              rw [hgap]
              exact skipGap_of_nextToken?_punct (nextToken?_append hn hlast z)
          | succ outer => exact ih h
        · rw [if_neg hc] at h ⊢
          rw [if_neg hc]
          exact ih h

/-- A parenthesis that is closed right behind `a` is closed there whatever follows. -/
theorem enclosed_append (h : Bytes.enclosed (a ++ ascii ")") = (a, [])) (z : Bytes) :
    Bytes.enclosed (a ++ ascii ")" ++ z) = (a, z) := by
  obtain ⟨hspan, hrest⟩ := Prod.mk.inj h
  have hsplit := append_fromClosing (a ++ ascii ")")
  rw [hspan] at hsplit
  have hend : fromClosing 0 (a ++ ascii ")") = ascii ")" := (List.append_cancel_left hsplit).symm
  have hend' : fromClosing 0 (a ++ ascii ")" ++ z) = ascii ")" ++ z := by
    rw [fromClosing_append (by rw [hend]; exact List.cons_ne_nil _ _), hend]
  have hsplit' := append_fromClosing (a ++ ascii ")" ++ z)
  rw [hend', List.append_assoc] at hsplit'
  refine Prod.ext ?_ ?_
  · show (a ++ ascii ")" ++ z).take (spanLength (a ++ ascii ")" ++ z)) = a
    rw [List.append_assoc]
    exact (List.append_cancel_right hsplit').symm
  · show (fromClosing 0 (a ++ ascii ")" ++ z)).drop 1 = z
    rw [hend']
    rfl

end SqlTables
