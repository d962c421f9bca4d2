import SqlTables.Token.Lexer

/-!
# `SqlTables.Proofs.Token.Prefix` — a text that is cut behind a token

A token is read from the bytes up to its end, so what follows it may be cut off. There is one
exception: two minus signs are a comment where the text ends behind them, and two tokens where a
parenthesis follows.

Throughout, `a ++ z` is the whole text, `a` the part that is kept, and `m` what is left of `a`.

## Contents
- **Search** in the part that is kept: `findIdx?_of_append`, `offset?_of_append`.
- **Gaps**: `afterComment?_of_append`, `skipGap_of_append`.
- **Quoted texts**: `split_of_append`.
- **Tokens**: `nextToken?_of_append`.
-/

namespace SqlTables

variable {a m z : Bytes}

/-! ## Search -/

/-- A cut in front of `z` leaves the same bytes on both sides. -/
theorem drop_of_append {k : Nat} (hk : k ≤ (a ++ z).length) (h : (a ++ z).drop k = m ++ z) :
    k ≤ a.length ∧ a.drop k = m := by
  have hlen := congrArg List.length h
  rw [List.length_drop, List.length_append, List.length_append] at hlen
  rw [List.length_append] at hk
  have hle : k ≤ a.length := by omega
  refine ⟨hle, ?_⟩
  rw [List.drop_append_of_le_length hle] at h
  exact List.append_cancel_right h

/-- A byte that is found in front of the cut is found in the part that is kept. -/
theorem findIdx?_of_append {p : UInt8 → Bool} {n : Nat} (h : (a ++ z).findIdx? p = some n)
    (hn : n < a.length) : a.findIdx? p = some n := by
  rw [List.findIdx?_append] at h
  cases ha : a.findIdx? p with
  | some k => rw [ha] at h; exact h
  | none =>
      rw [ha, Option.none_or, Option.map_eq_some_iff] at h
      obtain ⟨k, _, hk⟩ := h
      omega

/-- Whether a text starts with `pat` shows in any part of it that is long enough. -/
theorem isPrefixOf_append {pat : Bytes} (h : pat.length ≤ a.length) :
    pat.isPrefixOf (a ++ z) = pat.isPrefixOf a := by
  rw [Bool.eq_iff_iff, List.isPrefixOf_iff_prefix, List.isPrefixOf_iff_prefix]
  constructor
  · intro hp
    exact List.prefix_of_prefix_length_le hp (List.prefix_append a z) h
  · intro hp
    exact hp.trans (List.prefix_append a z)

/-- A pattern that lies in front of the cut as a whole is found on both sides or on neither. -/
theorem offset?_of_append {pat : Bytes} {n : Nat} (hn : n + pat.length ≤ a.length) :
    Bytes.offset? pat (a ++ z) = some n ↔ Bytes.offset? pat a = some n := by
  induction a generalizing n with
  | nil =>
      rw [List.length_nil] at hn
      obtain rfl : pat = [] := List.eq_nil_of_length_eq_zero (by omega)
      obtain rfl : n = 0 := by omega
      cases z <;> simp [Bytes.offset?, List.isPrefixOf]
  | cons b a ih =>
      rw [List.length_cons] at hn
      have hpre : pat.isPrefixOf (b :: (a ++ z)) = pat.isPrefixOf (b :: a) :=
        isPrefixOf_append (a := b :: a) (by rw [List.length_cons]; omega)
      rw [List.cons_append, Bytes.offset?, Bytes.offset?, hpre]
      -- Both searches look at the same bytes here, because the pattern ends in front of the cut.
      by_cases hp : pat.isPrefixOf (b :: a)
      · rw [if_pos hp, if_pos hp]
      · rw [if_neg hp, if_neg hp, Option.map_eq_some_iff, Option.map_eq_some_iff]
        constructor
        · rintro ⟨k, hk, rfl⟩
          exact ⟨k, (ih (by omega)).mp hk, rfl⟩
        · rintro ⟨k, hk, rfl⟩
          exact ⟨k, (ih (by omega)).mpr hk, rfl⟩

/-! ## Gaps -/

/-- A line that ends in front of `z` ends there in the part that is kept. -/
theorem afterLine_of_append (h : afterLine (a ++ z) = m ++ z) : afterLine a = m := by
  unfold afterLine at h ⊢
  split at h
  · next n hn =>
      obtain ⟨hlt, _⟩ := List.findIdx?_eq_some_iff_getElem.mp hn
      obtain ⟨hle, hd⟩ := drop_of_append hlt h
      rw [findIdx?_of_append hn hle]
      exact hd
  · next hn =>
      obtain ⟨rfl, rfl⟩ := List.append_eq_nil_iff.mp h.symm
      rw [List.append_nil] at hn
      rw [hn]

/-- A `*/` in front of `z` is found in the part that is kept. Where there is none, nothing is left on either
    side. -/
theorem afterBlock_of_append (h : afterBlock (a ++ z) = m ++ z) : afterBlock a = m := by
  unfold afterBlock at h ⊢
  split at h
  · next n hn =>
      obtain ⟨hle, hd⟩ := drop_of_append (offset?_le hn) h
      rw [(offset?_of_append hle).mp hn]
      exact hd
  · next hn =>
      obtain ⟨rfl, rfl⟩ := List.append_eq_nil_iff.mp h.symm
      rw [List.append_nil] at hn
      rw [hn]

/-- Where a comment to the end of the line starts, told by the first bytes. -/
theorem startsLineComment_cons (b : UInt8) (rest : Bytes) :
    startsLineComment (b :: rest) = true ↔
      b = '#'.toUInt8 ∨ b = '-'.toUInt8 ∧
        ∃ tail, rest = '-'.toUInt8 :: tail ∧ tail.head?.all isSeparator = true := by
  have hash : ascii "#" = ['#'.toUInt8] := rfl
  have dashes : ascii "--" = ['-'.toUInt8, '-'.toUInt8] := rfl
  rw [startsLineComment, hash, dashes]
  rw [Bool.or_eq_true, Bool.and_eq_true, List.isPrefixOf_iff_prefix, List.isPrefixOf_iff_prefix,
    List.cons_prefix_cons, List.cons_prefix_cons]
  constructor
  · rintro (⟨rfl, _⟩ | ⟨⟨rfl, tail, rfl⟩, hsep⟩)
    · exact Or.inl rfl
    · exact Or.inr ⟨rfl, tail, rfl, hsep⟩
  · rintro (rfl | ⟨rfl, tail, rfl, hsep⟩)
    · exact Or.inl ⟨rfl, List.nil_prefix⟩
    · exact Or.inr ⟨⟨rfl, tail, rfl⟩, hsep⟩

/-- A comment in `/*` starts with both bytes of its mark. -/
theorem startsBlockComment_iff {bs : Bytes} :
    startsBlockComment bs = true ↔ ∃ tail, bs = '/'.toUInt8 :: '*'.toUInt8 :: tail := by
  have mark : ascii "/*" = ['/'.toUInt8, '*'.toUInt8] := rfl
  rw [startsBlockComment, mark, List.isPrefixOf_iff_prefix]
  constructor
  · rintro ⟨tail, rfl⟩
    exact ⟨tail, rfl⟩
  · rintro ⟨tail, rfl⟩
    exact ⟨tail, rfl⟩

/-- No comment to the end of the line starts with a slash. -/
theorem ne_slash_of_startsLineComment {b : UInt8} {rest : Bytes}
    (h : startsLineComment (b :: rest) = true) : b ≠ '/'.toUInt8 := by
  rcases (startsLineComment_cons b rest).mp h with rfl | ⟨rfl, _⟩
  · decide
  · decide

/-- Behind `/*` the end of the comment is looked for. -/
theorem afterComment?_blockMark (body : Bytes) :
    afterComment? (ascii "/*" ++ body) = some (afterBlock body) := by
  have hline : ¬ startsLineComment (ascii "/*" ++ body) = true := by
    intro h
    exact ne_slash_of_startsLineComment h rfl
  have hblock : startsBlockComment (ascii "/*" ++ body) = true :=
    startsBlockComment_iff.mpr ⟨body, rfl⟩
  unfold afterComment?
  rw [if_neg hline, if_pos hblock]
  rfl

/-- The end of a line is looked for behind any other byte. -/
theorem afterLine_cons {b : UInt8} (hb : b ≠ '\n'.toUInt8) (rest : Bytes) :
    afterLine (b :: rest) = afterLine rest := by
  unfold afterLine
  rw [List.findIdx?_cons, if_neg (by simpa using hb)]
  cases rest.findIdx? (· == '\n'.toUInt8) with
  | none => rfl
  | some n => rfl

/-- A comment that ends in front of `z` starts in front of `z`. -/
theorem startsLineComment_of_append (hs : startsLineComment (a ++ z) = true)
    (h : afterLine (a ++ z) = m ++ z) : startsLineComment a = true := by
  -- Past the first bytes of the comment there is more than `z`, unless `z` is empty.
  have short : ∀ {bs : Bytes}, afterLine bs = m ++ bs → bs = [] := by
    intro bs hb
    cases bs with
    | nil => rfl
    | cons b rest =>
        have hlt : (afterLine (b :: rest)).length < (b :: rest).length := afterLine_length
        rw [hb, List.length_append] at hlt
        omega
  -- Whether a comment starts is told by at most three bytes, so `a` is cut behind none, one or two.
  match a with
  | [] =>
      rw [List.nil_append] at hs h
      rw [short h] at hs
      exact hs
  | [b] =>
      rw [List.singleton_append, startsLineComment_cons] at hs
      rw [startsLineComment_cons]
      rcases hs with hb | ⟨hb, tail, rfl, _⟩
      · exact Or.inl hb
      · rw [List.singleton_append, hb, afterLine_cons (by decide)] at h
        exact absurd (short h) (List.cons_ne_nil _ _)
  | [b, c] =>
      rw [List.cons_append, startsLineComment_cons] at hs
      rw [startsLineComment_cons]
      rcases hs with hb | ⟨hb, tail, htail, _⟩
      · exact Or.inl hb
      · rw [List.singleton_append, List.cons.injEq] at htail
        obtain ⟨hc, rfl⟩ := htail
        rw [List.cons_append, List.singleton_append, hb, hc, afterLine_cons (by decide),
          afterLine_cons (by decide)] at h
        exact Or.inr ⟨hb, [], by rw [hc], rfl⟩
  | b :: c :: d :: rest =>
      rw [List.cons_append, startsLineComment_cons] at hs
      rw [startsLineComment_cons]
      rcases hs with hb | ⟨hb, tail, htail, hsep⟩
      · exact Or.inl hb
      · rw [List.cons_append, List.cons.injEq] at htail
        obtain ⟨hc, rfl⟩ := htail
        exact Or.inr ⟨hb, d :: rest, by rw [hc], hsep⟩

/-- A comment that ends in front of `z` is the same comment in the part that is kept. -/
theorem afterComment?_of_append (h : afterComment? (a ++ z) = some (m ++ z)) :
    afterComment? a = some m := by
  unfold afterComment? at h ⊢
  by_cases hl : startsLineComment (a ++ z) = true
  · rw [if_pos hl, Option.some.injEq] at h
    rw [if_pos (startsLineComment_of_append hl h), afterLine_of_append h]
  · rw [if_neg hl] at h
    by_cases hb : startsBlockComment (a ++ z) = true
    · rw [if_pos hb, Option.some.injEq] at h
      have hle := (afterBlock_suffix ((a ++ z).drop 2)).length_le
      obtain ⟨tail, htail⟩ := startsBlockComment_iff.mp hb
      rw [h, List.length_append, htail] at hle
      have hlen := congrArg List.length htail
      simp only [List.length_append, List.length_cons, List.drop_succ_cons, List.drop_zero] at hle hlen
      -- `a` holds both bytes of the mark: the comment ends behind them and in front of `z`.
      match a with
      | [] => simp only [List.length_nil] at hlen; omega
      | [b] => simp only [List.length_cons, List.length_nil] at hlen; omega
      | b :: c :: rest =>
          rw [List.cons_append, List.cons_append, List.cons.injEq, List.cons.injEq] at htail
          obtain ⟨rfl, rfl, rfl⟩ := htail
          exact (afterComment?_blockMark rest).trans (congrArg some (afterBlock_of_append h))
    · rw [if_neg hb] at h
      cases h

/-- A comment that starts only because the text is cut consists of two minus signs. -/
theorem afterComment?_none_of_append (h : afterComment? (a ++ z) = none) :
    afterComment? a = none ∨ a = ascii "--" := by
  obtain ⟨hl, hb⟩ := Bool.or_eq_false_iff.mp (afterComment?_eq_none_iff.mp h)
  unfold afterComment?
  by_cases hl' : startsLineComment a = true
  · right
    match a with
    | [] => exact absurd hl' (by decide)
    | b :: rest =>
        rw [← Bool.not_eq_true, List.cons_append, startsLineComment_cons] at hl
        rcases (startsLineComment_cons b rest).mp hl' with hb' | ⟨rfl, tail, rfl, hsep⟩
        · exact absurd (Or.inl hb') hl
        · cases tail with
          | nil => rfl
          | cons c tail => exact absurd (Or.inr ⟨rfl, c :: tail ++ z, rfl, hsep⟩) hl
  · left
    rw [if_neg hl', if_neg]
    intro hb'
    obtain ⟨tail, rfl⟩ := startsBlockComment_iff.mp hb'
    rw [← Bool.not_eq_true] at hb
    exact hb (startsBlockComment_iff.mpr ⟨tail ++ z, rfl⟩)

/-- Where more than `z` is left, or `z` starts with no separator, none of `z` has been passed. -/
theorem dropWhile_of_append {p : UInt8 → Bool} {x : Bytes} (hx : x ≠ [] ∨ z.dropWhile p = z)
    (h : x ++ z <:+ (a ++ z).dropWhile p) : (a ++ z).dropWhile p = a.dropWhile p ++ z := by
  rw [List.dropWhile_append] at h ⊢
  split
  · next he =>
      rw [if_pos he] at h
      rcases hx with hx | hz
      · have hle := (h.trans (List.dropWhile_suffix p)).length_le
        have hpos := List.length_pos_iff.mpr hx
        rw [List.length_append] at hle
        omega
      · rw [hz, List.isEmpty_iff.mp he]
        rfl
  · rfl

/-- The gap in front of `x` is passed in the part that is kept, but where two minus signs are all that is left
    of it they are a comment and are passed as well. -/
theorem skipGap_of_append {x : Bytes} (h : skipGap (a ++ z) = x ++ z)
    (hx : x ≠ [] ∨ z.dropWhile isSeparator = z) :
    skipGap a = x ∨ x = ascii "--" ∧ skipGap a = [] := by
  generalize hbs : a ++ z = bs at h
  fun_induction skipGap bs generalizing a with
  | case1 bs rest hc ih =>
      subst hbs
      have hrest : x ++ z <:+ rest := h ▸ skipGap_suffix rest
      rw [dropWhile_of_append hx (hrest.trans (afterComment?_suffix hc))] at hc
      -- The comment ends in front of `z`, since what it leaves still ends in `x ++ z`.
      obtain ⟨m, rfl⟩ := (List.suffix_append x z).trans hrest
      rw [skipGap_eq, afterComment?_of_append hc]
      exact ih rfl h
  | case2 bs hc =>
      subst hbs
      have hd := dropWhile_of_append (p := isSeparator) hx ⟨[], h.symm⟩
      rw [hd] at h hc
      obtain rfl := List.append_cancel_right h
      rw [skipGap_eq]
      rcases afterComment?_none_of_append hc with hn | hdash
      · rw [hn]
        exact Or.inl rfl
      · rw [hdash]
        exact Or.inr ⟨rfl, by decide +kernel⟩

/-! ## Quoted texts -/

/-- No text closes in front of its first mark. -/
theorem findIdx?_le_closing? {q : Quote} {bs : Bytes} {k n : Nat}
    (hf : bs.findIdx? q.isMark = some k) (h : q.closing? bs = some n) : k ≤ n := by
  rw [Quote.closing?_eq, hf] at h
  simp only at h
  split at h
  · cases h
  · split at h
    · obtain ⟨j, _, rfl⟩ := Option.map_eq_some_iff.mp h
      omega
    · cases h
      exact Nat.le_refl _

/-- A delimiter that closes in front of the cut closes in the part that is kept. -/
theorem closing?_of_append {q : Quote} {n : Nat} (h : q.closing? (a ++ z) = some n)
    (hn : n < a.length) : q.closing? a = some n := by
  -- Along the marks: each one that is passed leaves a shorter text.
  generalize hlen : a.length = len
  induction len using Nat.strongRecOn generalizing a n with
  | ind len ih =>
      cases hf : (a ++ z).findIdx? q.isMark with
      | none =>
          rw [Quote.closing?_eq, hf] at h
          cases h
      | some k =>
          have hk : k ≤ n := findIdx?_le_closing? hf h
          rw [Quote.closing?_eq, hf] at h
          rw [Quote.closing?_eq, findIdx?_of_append hf (by omega)]
          simp only at h ⊢
          rw [List.drop_append_of_le_length (by omega)] at h
          cases hd : a.drop k with
          | nil =>
              have := List.drop_eq_nil_iff.mp hd
              omega
          | cons b rest =>
              have hrest := congrArg List.length hd
              rw [List.length_drop, List.length_cons] at hrest
              rw [hd, List.cons_append] at h
              simp only at h ⊢
              cases rest with
              | nil =>
                  -- Nothing is left behind the mark, so the mark itself closes.
                  have hkn : n = k := by
                    rw [List.length_nil] at hrest
                    omega
                  split at h
                  · obtain ⟨j, _, hj⟩ := Option.map_eq_some_iff.mp h
                    omega
                  · next hb =>
                      rw [if_neg, hkn]
                      rintro (hb' | hb')
                      · exact hb (Or.inl hb')
                      · cases hb'
              | cons c rest =>
                  rw [List.cons_append, List.head?_cons, List.drop_succ_cons, List.drop_zero] at h
                  rw [List.head?_cons, List.drop_succ_cons, List.drop_zero]
                  split at h
                  · next hb =>
                      rw [if_pos hb]
                      obtain ⟨j, hj, rfl⟩ := Option.map_eq_some_iff.mp h
                      rw [List.length_cons] at hrest
                      rw [ih rest.length (by omega) hj (by omega) rfl]
                      rfl
                  · next hb =>
                      rw [if_neg hb]
                      exact h

/-- A quoted text that ends in front of `z` is the same in the part that is kept. -/
theorem split_of_append {q : Quote} {c : Bytes} (h : q.split (a ++ z) = (c, m ++ z)) :
    q.split a = (c, m) := by
  unfold Quote.split at h ⊢
  split at h
  · next n hn =>
      rw [Prod.mk.injEq] at h
      obtain ⟨hle, hd⟩ := drop_of_append (Quote.lt_length_of_closing? hn) h.2
      rw [closing?_of_append hn hle]
      simp only
      rw [hd, ← h.1, List.take_append_of_le_length (by omega)]
  · next hn =>
      rw [Prod.mk.injEq] at h
      obtain ⟨rfl, rfl⟩ := List.append_eq_nil_iff.mp h.2.symm
      rw [List.append_nil] at hn h
      rw [hn, ← h.1]

/-! ## Tokens -/

/-- A word that ends in front of `z` is the same in the part that is kept. -/
theorem takeWhile_of_append {p : UInt8 → Bool} (h : (a ++ z).dropWhile p = m ++ z) :
    (a ++ z).takeWhile p = a.takeWhile p ∧ a.dropWhile p = m := by
  have hd : a.dropWhile p = m := by
    rw [List.dropWhile_append] at h
    split at h
    · next he =>
        have hle := (List.dropWhile_suffix (l := z) p).length_le
        rw [h, List.length_append] at hle
        rw [List.isEmpty_iff.mp he]
        exact (List.eq_nil_of_length_eq_zero (by omega)).symm
    · exact List.append_cancel_right h
  refine ⟨?_, hd⟩
  have hall := List.takeWhile_append_dropWhile (p := p) (l := a ++ z)
  have ha := List.takeWhile_append_dropWhile (p := p) (l := a)
  rw [h] at hall
  rw [hd] at ha
  rw [← ha, ← List.append_assoc] at hall
  have htake := List.append_cancel_right (List.append_cancel_right hall)
  rw [ha] at htake
  exact htake

/-- A token is read in the same way when the text is cut anywhere behind it, except where the cut
    makes a comment of two minus signs. -/
theorem nextToken?_of_append {t : Token} (h : (a ++ z).nextToken? = some (t, m ++ z)) :
    a.nextToken? = some (t, m) ∨ t = .sym '-' ∧ m = ascii "-" ∧ a.nextToken? = none := by
  obtain ⟨b, tail, hs, hsuf⟩ := nextToken?_suffix h
  obtain ⟨y, rfl⟩ := (List.suffix_append m z).trans hsuf
  rw [Bytes.nextToken?, hs] at h
  simp only at h
  -- The gap in front of the token is the same, or the cut makes a comment of
  -- a minus sign and the next one.
  rcases skipGap_of_append (x := b :: y) hs (Or.inl (List.cons_ne_nil b y)) with hg | ⟨hdash, hg⟩
  · left
    rw [Bytes.nextToken?, hg]
    simp only
    split at h
    · next q hq =>
        rw [Option.some.injEq, Prod.mk.injEq] at h
        obtain ⟨rfl, hr⟩ := h
        rw [split_of_append (c := (q.split (y ++ z)).1) (Prod.ext rfl hr)]
    · split at h
      · next hq hw =>
          rw [Option.some.injEq, Prod.mk.injEq] at h
          obtain ⟨rfl, hr⟩ := h
          obtain ⟨htake, hdrop⟩ := takeWhile_of_append hr
          rw [if_pos hw, htake, hdrop]
      · next hq hw =>
          rw [Option.some.injEq, Prod.mk.injEq] at h
          obtain ⟨rfl, hr⟩ := h
          rw [if_neg hw, List.append_cancel_right hr]
  · right
    obtain ⟨rfl, rfl⟩ : b = '-'.toUInt8 ∧ y = ascii "-" := by
      rw [show ascii "--" = '-'.toUInt8 :: ascii "-" from rfl, List.cons.injEq] at hdash
      exact hdash
    rw [show Quote.ofByte? '-'.toUInt8 = none from rfl, if_neg (by decide)] at h
    simp only [Option.some.injEq, Prod.mk.injEq] at h
    refine ⟨h.1.symm, (List.append_cancel_right h.2).symm, ?_⟩
    rw [Bytes.nextToken?, hg]

end SqlTables
