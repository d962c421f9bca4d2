import SqlTables.Proofs.Cursor.Enclosed

/-!
# `SqlTables.Proofs.Token.Parens` — the parentheses of a text

One pass over the tokens of a text finds all of its parentheses, the inner ones as well as the outer ones, with
the bytes that each of them spans. A span that is cut out of the text has the parentheses that stand in it,
though it is read again as a text of its own.

## Contents
- **`Paren`** and **`Bytes.parens`**: all parentheses of a text, in order.
- **`fromClosing_of_append`**: the end of a parenthesis in a text that is cut behind it.
- **`parens_fromClosing`** and **`parens_open`**: the parentheses inside of a span and behind it.
-/

namespace SqlTables

/-- A parenthesised span of a text. -/
structure Paren where
  /-- The offset behind the opening parenthesis. -/
  first : Nat
  span : Bytes
  deriving DecidableEq

namespace Paren

/-- The offset at which the span ends. -/
def last (p : Paren) : Nat := p.first + p.span.length

/-- Whether a span holds another one. -/
def encloses (p q : Paren) : Bool := p.first < q.first && q.last ≤ p.last

/-- The same parenthesis behind `n` more bytes. -/
def shift (n : Nat) (p : Paren) : Paren := { p with first := p.first + n }

theorem last_shift (n : Nat) (p : Paren) : (p.shift n).last = p.last + n := by
  simp only [last, shift]
  omega

theorem shift_shift (m n : Nat) (p : Paren) : (p.shift m).shift n = p.shift (m + n) := by
  simp only [shift, Nat.add_assoc]

theorem encloses_shift (n : Nat) (p q : Paren) : (p.shift n).encloses (q.shift n) = p.encloses q := by
  rw [encloses, encloses, last_shift, last_shift]
  simp only [shift, Nat.add_lt_add_iff_right, Nat.add_le_add_iff_right]

end Paren

/-- The parentheses of a text in the order in which they open. One that is never closed spans the rest of the
    text. -/
def Bytes.parens (bs : Bytes) : List Paren :=
  match _h : bs.nextToken? with
  | none => []
  | some (t, rest) =>
      let behind := offset bs rest
      (if t = .sym '(' then [⟨behind, rest.enclosed.1⟩] else []) ++
        (Bytes.parens rest).map (Paren.shift behind)
termination_by bs.length
decreasing_by exact length_lt_of_nextToken? ‹_›

variable {a bs m rest z : Bytes} {t : Token} {k : Nat}

/-- The parentheses of a text are that of its next token, if it is one, and those behind the token. -/
theorem parens_of_nextToken? (h : bs.nextToken? = some (t, rest)) :
    bs.parens = (if t = .sym '(' then [⟨offset bs rest, rest.enclosed.1⟩] else []) ++
      rest.parens.map (Paren.shift (offset bs rest)) := by
  rw [Bytes.parens]
  split
  · next hn =>
      rw [h] at hn
      cases hn
  · next hn =>
      rw [h] at hn
      cases hn
      rfl

theorem parens_of_nextToken?_none (h : bs.nextToken? = none) : bs.parens = [] := by
  rw [Bytes.parens]
  split
  · rfl
  · next hn =>
      rw [h] at hn
      cases hn

theorem parens_nil : Bytes.parens [] = [] :=
  parens_of_nextToken?_none (nextToken?_of_skipGap_nil (List.suffix_nil.mp (skipGap_suffix [])))

/-- Every span lies in the text, behind its parenthesis. -/
theorem bounds_of_mem_parens : ∀ p ∈ bs.parens, 0 < p.first ∧ p.last ≤ bs.length := by
  fun_induction Bytes.tokens bs with
  | case2 bs h =>
      rw [parens_of_nextToken?_none h]
      exact List.forall_mem_nil _
  | case1 bs t rest h ih =>
      have hlt := length_lt_of_nextToken? h
      have hinside := enclosed_span_prefix rest
      have hspan := hinside.length_le
      rw [parens_of_nextToken? h, List.forall_mem_append]
      constructor
      · split
        · rw [List.forall_mem_singleton, Paren.last, offset]
          simp only
          omega
        · exact List.forall_mem_nil _
      · intro p hp
        obtain ⟨q, hq, rfl⟩ := List.mem_map.mp hp
        -- A span behind the token has been moved by the bytes of the token.
        obtain ⟨-, hlast⟩ := ih q hq
        rw [Paren.last_shift, Paren.shift, offset]
        simp only
        omega

/-! ## The end of a parenthesis -/

/-- What a token does to the search for the end of a parenthesis, whatever text it stands in: the search goes on
    behind it, or it is the end. -/
theorem closing_cases (t : Token) (depth : Nat) :
    (∃ inner, (t = .sym '(' → inner = depth + 1) ∧ ∀ {bs rest : Bytes},
        bs.nextToken? = some (t, rest) → fromClosing depth bs = fromClosing inner rest) ∨
      depth = 0 ∧ t = .sym ')' := by
  by_cases ho : t = .sym '('
  · left
    refine ⟨depth + 1, fun _ => rfl, fun h => ?_⟩
    rw [fromClosing_of_nextToken? h, if_pos ho]
  · by_cases hc : t = .sym ')'
    · cases depth with
      | zero => exact Or.inr ⟨rfl, hc⟩
      | succ outer =>
          left
          refine ⟨outer, fun h => absurd h ho, fun h => ?_⟩
          rw [fromClosing_of_nextToken? h, if_neg ho, if_pos hc]
    · left
      refine ⟨depth, fun h => absurd h ho, fun h => ?_⟩
      rw [fromClosing_of_nextToken? h, if_neg ho, if_neg hc]

/-- At the lowest level the next parenthesis that closes is the end. -/
theorem fromClosing_end (h : bs.nextToken? = some (.sym ')', rest)) :
    fromClosing 0 bs = ')'.toUInt8 :: rest := by
  rw [fromClosing_of_nextToken? h, if_neg (by decide), if_pos rfl]
  exact skipGap_of_nextToken?_punct h

theorem fromClosing_nil (depth : Nat) : fromClosing depth [] = [] :=
  List.suffix_nil.mp (fromClosing_suffix depth [])

/-- The end of an outer parenthesis is looked for behind the end of the inner one. -/
theorem fromClosing_add (inner outer : Nat) (bs : Bytes) :
    fromClosing (inner + 1 + outer) bs = fromClosing outer ((fromClosing inner bs).drop 1) := by
  fun_induction Bytes.tokens bs generalizing inner with
  | case2 bs h =>
      rw [fromClosing_of_nextToken?_none h, fromClosing_of_nextToken?_none h, List.drop_nil, fromClosing_nil]
  | case1 bs t rest h ih =>
      rw [fromClosing_of_nextToken? h, fromClosing_of_nextToken? h]
      -- Both searches go through the same tokens. They part where the inner parenthesis ends.
      by_cases ho : t = .sym '('
      · rw [if_pos ho, if_pos ho, ← ih]
        congr 1
        omega
      · rw [if_neg ho, if_neg ho]
        by_cases hc : t = .sym ')'
        · rw [if_pos hc, if_pos hc]
          subst hc
          cases inner with
          | zero =>
              have hdepth : 0 + 1 + outer = outer + 1 := by omega
              rw [hdepth]
              simp only
              rw [skipGap_of_nextToken?_punct h, List.drop_succ_cons, List.drop_zero]
          | succ inner =>
              have hdepth : inner + 1 + 1 + outer = inner + 1 + outer + 1 := by omega
              rw [hdepth]
              exact ih inner
        · rw [if_neg hc, if_neg hc, ih]

/-- The end of a parenthesis stays where it is when the text is cut behind it. -/
theorem fromClosing_of_append (h : fromClosing k (a ++ z) = m ++ z) (hm : m ≠ []) :
    fromClosing k a = m := by
  generalize hbs : a ++ z = bs at h
  fun_induction Bytes.tokens bs generalizing a k with
  | case2 bs hn =>
      rw [fromClosing_of_nextToken?_none hn] at h
      exact absurd (List.append_eq_nil_iff.mp h.symm).1 hm
  | case1 bs t rest hn ih =>
      subst hbs
      rcases closing_cases t k with ⟨inner, -, hstep⟩ | ⟨rfl, rfl⟩
      · rw [hstep hn] at h
        have hback : m ++ z <:+ rest := h ▸ fromClosing_suffix inner rest
        obtain ⟨y, rfl⟩ := (List.suffix_append m z).trans hback
        rcases nextToken?_of_append hn with ha | ⟨-, rfl, -⟩
        · rw [hstep ha]
          exact ih rfl h
        · -- The end starts with a parenthesis, and all that is left of the text is a dash.
          have hend : m <:+ ascii "-" := by
            obtain ⟨front, hfront⟩ := hback
            rw [← List.append_assoc] at hfront
            exact ⟨front, List.append_cancel_right hfront⟩
          obtain ⟨b, tail, rfl⟩ := List.exists_cons_of_ne_nil hm
          rcases fromClosing_cases inner (ascii "-" ++ z) with ⟨hnil, -⟩ | ⟨behind, hclose, -⟩
          · rw [hnil] at h
            cases h
          · rw [hclose, List.cons_append] at h
            obtain ⟨rfl, -⟩ := List.cons.inj h
            exact absurd (hend.mem List.mem_cons_self) (by decide)
      · rw [fromClosing_end hn] at h
        obtain ⟨b, y, rfl⟩ := List.exists_cons_of_ne_nil hm
        obtain ⟨rfl, rfl⟩ := List.cons.inj h
        rcases nextToken?_of_append hn with ha | ⟨hdash, -, -⟩
        · exact fromClosing_end ha
        · exact absurd hdash (by decide)

/-- An inner span is the same in a text that is cut at the end of an outer one. -/
theorem enclosed_span_of_append (h : fromClosing (k + 1) (m ++ z) = z) :
    (m ++ z).enclosed.1 = m.enclosed.1 := by
  have houter := fromClosing_add 0 k (m ++ z)
  rw [Nat.zero_add, Nat.add_comm 1 k, h] at houter
  rcases fromClosing_cases 0 (m ++ z) with ⟨hnil, -⟩ | ⟨behind, hclose, -⟩
  · rw [hnil, List.drop_nil, fromClosing_nil] at houter
    rw [houter, List.append_nil]
  · rw [hclose, List.drop_succ_cons, List.drop_zero] at houter
    obtain ⟨y, hy⟩ : z <:+ behind := by
      rw [houter]
      exact fromClosing_suffix k behind
    have hinner : fromClosing 0 (m ++ z) = ')'.toUInt8 :: y ++ z := by
      rw [hclose, ← hy]
      rfl
    have hsplit := append_fromClosing (m ++ z)
    have hsplit' := append_fromClosing m
    rw [fromClosing_of_append hinner (List.cons_ne_nil _ _)] at hsplit'
    rw [hinner, ← List.append_assoc] at hsplit
    have hm := List.append_cancel_right hsplit
    exact List.append_cancel_right (hm.symm.trans hsplit')

/-! ## Inside of a span and behind it -/

/-- The parentheses in front of the end of a span are those of the bytes in front of it, and what stands behind
    it has parentheses of its own. -/
theorem parens_fromClosing {depth : Nat} (h : bs = a ++ fromClosing depth bs) :
    bs.parens = a.parens ++
      (Bytes.parens ((fromClosing depth bs).drop 1)).map (Paren.shift (a.length + 1)) := by
  fun_induction Bytes.tokens bs generalizing depth a with
  | case2 bs hn =>
      rw [fromClosing_of_nextToken?_none hn, List.append_nil] at h
      rw [fromClosing_of_nextToken?_none hn, List.drop_nil, parens_nil, ← h, List.map_nil, List.append_nil]
  | case1 bs t rest hn ih =>
      have hlength := congrArg List.length h
      rw [List.length_append] at hlength
      rw [parens_of_nextToken? hn]
      -- Either the search goes on behind this token, which then belongs to `a`, or the token is the end.
      rcases closing_cases t depth with ⟨inner, hopen, hstep⟩ | ⟨rfl, rfl⟩
      · have hf := hstep hn
        obtain ⟨m, hm⟩ := fromClosing_suffix inner rest
        have hcut : (a ++ fromClosing inner rest).nextToken? = some (t, m ++ fromClosing inner rest) := by
          rw [hm, ← hf, ← h]
          exact hn
        have hrest := congrArg List.length hm
        rw [List.length_append] at hrest
        have hlt := length_lt_of_nextToken? hn
        rw [hf] at hlength ⊢
        rw [ih hm.symm, List.map_append, List.map_map]
        have hbehind : offset bs rest + m.length = a.length := by
          rw [offset]
          omega
        -- What stands behind the end is moved by `m` and the parenthesis, then by the token in front.
        have hshift : Paren.shift (offset bs rest) ∘ Paren.shift (m.length + 1) =
            Paren.shift (a.length + 1) := by
          funext p
          rw [Function.comp_apply, Paren.shift_shift, ← hbehind]
          congr 1
          omega
        rw [hshift, ← List.append_assoc]
        congr 1
        rcases nextToken?_of_append hcut with ha | ⟨rfl, rfl, ha⟩
        · have hoffset : offset a m = offset bs rest := by
            rw [offset]
            omega
          rw [parens_of_nextToken? ha, hoffset]
          congr 1
          by_cases ho : t = .sym '('
          · have hspan : fromClosing (depth + 1) (m ++ fromClosing inner rest) = fromClosing inner rest := by
              rw [hm, hopen ho]
            have hsame := enclosed_span_of_append hspan
            rw [hm] at hsame
            rw [if_pos ho, if_pos ho, hsame]
          · rw [if_neg ho, if_neg ho]
        · -- The cut makes a comment of two minus signs, and neither of them is a parenthesis.
          have hdash : Bytes.parens (ascii "-") = [] := by decide +kernel
          rw [parens_of_nextToken?_none ha, if_neg (by decide), hdash]
          rfl
      · have hend := fromClosing_end hn
        have hgap := skipGap_of_nextToken?_punct hn
        rw [hend] at h hlength ⊢
        rw [h] at hgap
        have hpar : isSeparator ')'.toUInt8 ≠ true := by decide
        have ha : a.nextToken? = none := by
          rcases skipGap_of_append (x := []) hgap (Or.inr (List.dropWhile_cons_of_neg hpar)) with ha | ⟨hd, _⟩
          · exact nextToken?_of_skipGap_nil ha
          · exact absurd hd (by decide)
        have hoffset : offset bs rest = a.length + 1 := by
          rw [List.length_cons] at hlength
          rw [offset]
          omega
        rw [parens_of_nextToken?_none ha, if_neg (by decide), hoffset]
        rfl

/-- A parenthesis that opens comes first, then those in its span, then those behind it. -/
theorem parens_open (h : bs.nextToken? = some (.sym '(', rest)) :
    bs.parens = ⟨offset bs rest, rest.enclosed.1⟩ ::
      (rest.enclosed.1.parens.map (Paren.shift (offset bs rest)) ++
        rest.enclosed.2.parens.map (Paren.shift (offset bs rest + rest.enclosed.1.length + 1))) := by
  have hcut := parens_fromClosing (append_fromClosing rest)
  rw [parens_of_nextToken? h, if_pos rfl, hcut, List.map_append, List.map_map]
  have hshift : Paren.shift (offset bs rest) ∘ Paren.shift ((rest.take (spanLength rest)).length + 1) =
      Paren.shift (offset bs rest + rest.enclosed.1.length + 1) := by
    funext p
    rw [Function.comp_apply, Paren.shift_shift]
    congr 1
    show rest.enclosed.1.length + 1 + _ = _
    omega
  rw [hshift]
  rfl

end SqlTables
