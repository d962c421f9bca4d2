import SqlTables.Proofs.Cursor
import SqlTables.Proofs.Token.Spans

/-!
# `SqlTables.Proofs.Cursor.Enclosed` — a span read again

The span of a parenthesis is cut out of the text and read as a text of its own. It then has the tokens that
stand between the parentheses, with one exception: a `--` at its end is a comment there and two minus signs
in front of the `)`. Behind the span the cursor goes on with the tokens behind the parenthesis.

## Contents
- **`fromClosing_cases`**: a parenthesis that is closed, and one that is not.
- **`Cursor.enclosed_eq`**: the span at a cursor, and where the cursor goes.
- **`tokens_enclosed`**: the tokens of the span and those behind it.
-/

namespace SqlTables

/-! ## Closed or not -/

/-- Either nothing closes the parenthesis and its span is all that is left, or a `)` stands between the span
    and what follows it. -/
theorem fromClosing_cases (depth : Nat) (bs : Bytes) :
    fromClosing depth bs = [] ∧ closeSpan depth bs.tokens = (bs.tokens, []) ∨
      ∃ rest, fromClosing depth bs = ')'.toUInt8 :: rest ∧
        bs.tokens = (closeSpan depth bs.tokens).1 ++ .sym ')' :: (closeSpan depth bs.tokens).2 := by
  fun_induction Bytes.tokens bs generalizing depth with
  | case2 bs h =>
      left
      exact ⟨fromClosing_of_nextToken?_none h depth, rfl⟩
  | case1 bs t rest h ih =>
      rcases closing_step h depth with ⟨inner, hf, hs⟩ | ⟨rfl, rfl, hf⟩
      · -- A token in front of the end belongs to the span, in both cases.
        rw [hf, hs]
        rcases ih inner with ⟨hnil, hopen⟩ | ⟨behind, hclose, htokens⟩
        · left
          rw [hopen]
          exact ⟨hnil, rfl⟩
        · right
          exact ⟨behind, hclose, congrArg (t :: ·) htokens⟩
      · right
        refine ⟨rest, hf, ?_⟩
        rw [closeSpan_end]
        rfl

/-! ## The span at a cursor -/

namespace Cursor

variable {c c' : Cursor}

theorem closing_eq (h : 0 < c.position) :
    c.closing (c.position - 1) = offset c.text (fromClosing 0 c.rest) := by
  have hnext : c.position - 1 + 1 = c.position := by omega
  rw [closing, hnext]
  rfl

/-- Behind a parenthesis the span is cut out of what the cursor has in front of it. -/
theorem enclosed_eq (hpos : 0 < c.position) (hle : c.position ≤ c.text.length) :
    c.enclosed = (c.rest.enclosed.1, c.moveTo c.rest.enclosed.2) := by
  have hrest : c.rest.length = c.text.length - c.position := List.length_drop
  have hfrom : (fromClosing 0 c.rest).length ≤ c.rest.length :=
    (fromClosing_suffix 0 c.rest).length_le
  have hclose : c.closing (c.position - 1) = c.position + spanLength c.rest := by
    rw [closing_eq hpos]
    simp only [offset, spanLength]
    omega
  have hbehind : min (c.closing (c.position - 1) + 1) c.text.length =
      offset c.text c.rest.enclosed.2 := by
    rw [closing_eq hpos]
    simp only [offset, Bytes.enclosed, List.length_drop]
    omega
  have hmin : min c.position (c.position + spanLength c.rest) = c.position := by omega
  unfold enclosed
  simp only [hbehind]
  rw [hclose, hmin, List.drop_take, Nat.add_sub_cancel_left]
  rfl

theorem rest_enclosed (hpos : 0 < c.position) (hle : c.position ≤ c.text.length) :
    c.enclosed.2.rest = c.rest.enclosed.2 := by
  rw [enclosed_eq hpos hle]
  exact rest_moveTo ((enclosed_rest_suffix c.rest).trans c.rest_suffix)

/-- A cursor that has read a token stands behind a byte of the text. -/
theorem position_of_next {t : Token} (h : c.next = (some t, c')) :
    0 < c'.position ∧ c'.position ≤ c'.text.length := by
  obtain ⟨-, htext, hposition⟩ := rest_of_next h
  have hlt := length_rest_lt h
  have hle := c.rest_suffix.length_le
  rw [hposition, htext, offset]
  omega

end Cursor

/-! ## Tokens inside and behind -/

/-- **A span read again.** Behind a `(` that a cursor has just read, the span is read as a text of its own
    with the tokens that the cursor would go on to read up to the matching `)`, or to the end of the text;
    only a `--` at the end of a closed span stands for two tokens that are missing. The cursor then stands
    just behind the closing parenthesis, or at the end, and goes on with the tokens behind it. -/
theorem tokens_enclosed {c c' : Cursor} (h : c.next = (some (.sym '('), c')) :
    let close := c'.closing (c'.position - 1)
    let span := c'.enclosed.1
    let behind := c'.enclosed.2
    let inside := (closeSpan 0 c'.tokens).1
    (inside = (Cursor.start span).tokens ∨
      close < c'.text.length ∧ ascii "--" <:+ span ∧
        inside = (Cursor.start span).tokens ++ [.sym '-', .sym '-']) ∧
      behind.tokens = (closeSpan 0 c'.tokens).2 ∧
      (c'.text[close]? = some ')'.toUInt8 ∧ behind.position = close + 1 ∧
          c'.tokens = inside ++ .sym ')' :: behind.tokens ∨
        close = c'.text.length ∧ behind.position = c'.text.length ∧
          c'.tokens = inside ∧ behind.tokens = []) := by
  obtain ⟨hpos, hle⟩ := Cursor.position_of_next h
  intro close span behind inside
  -- The end of the span is where `fromClosing` stops; everything else is told by that end.
  have hclose : close = offset c'.text (fromClosing 0 c'.rest) := Cursor.closing_eq hpos
  have hspan : span = c'.rest.take (spanLength c'.rest) := by
    show c'.enclosed.1 = _
    rw [Cursor.enclosed_eq hpos hle]
    rfl
  have hposition : behind.position = offset c'.text ((fromClosing 0 c'.rest).drop 1) := by
    show c'.enclosed.2.position = _
    rw [Cursor.enclosed_eq hpos hle]
    rfl
  have hbehind : behind.tokens = (closeSpan 0 c'.tokens).2 := by
    rw [Cursor.tokens_eq, Cursor.tokens_eq, Cursor.rest_enclosed hpos hle]
    exact tokens_fromClosing 0 c'.rest
  have hinside : HoldsTokens span inside := by
    show HoldsTokens span (closeSpan 0 c'.tokens).1
    rw [hspan, Cursor.tokens_eq]
    exact holdsTokens_closeSpan (append_fromClosing c'.rest)
  have hstart : (Cursor.start span).tokens = span.tokens := by
    rw [Cursor.tokens_eq, Cursor.rest_start]
  have hcases := fromClosing_cases 0 c'.rest
  rw [← Cursor.tokens_eq] at hcases
  rw [hstart]
  rcases hcases with ⟨hnil, hopen⟩ | ⟨rest, hclosing, htokens⟩
  · -- The span is the rest of the text, and is read as it is there.
    have hall : c'.rest.take (spanLength c'.rest) = c'.rest := by
      have hsplit := append_fromClosing c'.rest
      rw [hnil, List.append_nil] at hsplit
      exact hsplit.symm
    refine ⟨Or.inl ?_, hbehind, Or.inr ⟨?_, ?_, ?_, ?_⟩⟩
    · show (closeSpan 0 c'.tokens).1 = span.tokens
      rw [hopen, hspan, hall, Cursor.tokens_eq]
    · rw [hclose, hnil, offset_nil]
    · rw [hposition, hnil]
      exact offset_nil c'.text
    · show c'.tokens = (closeSpan 0 c'.tokens).1
      rw [hopen]
    · rw [hbehind, hopen]
  · -- A parenthesis closes the span, which may then end in dashes that are a comment on their own.
    have hsuffix : ')'.toUInt8 :: rest <:+ c'.text := by
      rw [← hclosing]
      exact (fromClosing_suffix 0 c'.rest).trans c'.rest_suffix
    have hnext : close + 1 = offset c'.text rest := by
      rw [hclose, hclosing]
      exact offset_cons hsuffix
    have hparen : c'.text[close]? = some ')'.toUInt8 := by
      rw [← List.head?_drop, hclose, hclosing, drop_offset hsuffix, List.head?_cons]
    refine ⟨?_, hbehind, Or.inl ⟨hparen, ?_, ?_⟩⟩
    · rcases hinside with hsame | ⟨hdashes, hmore⟩
      · exact Or.inl hsame
      · obtain ⟨hlt, -⟩ := List.getElem?_eq_some_iff.mp hparen
        exact Or.inr ⟨hlt, hdashes, hmore⟩
    · rw [hposition, hclosing, hnext]
      rfl
    · rw [hbehind]
      exact htokens

/-- In front of the `)` the text has two minus signs, and the span has a comment. -/
theorem tokens_enclosed_dashes :
    let c : Cursor := ⟨ascii "x (a (b)--) y", 1⟩
    let c' : Cursor := ⟨c.text, 3⟩
    c.next = (some (.sym '('), c') ∧ c'.enclosed.1 = ascii "a (b)--" ∧
      (closeSpan 0 c'.tokens).1 = (Cursor.start c'.enclosed.1).tokens ++ [.sym '-', .sym '-'] ∧
      c'.enclosed.2.position = 11 ∧ c'.enclosed.2.tokens = [.word (ascii "y")] := by
  intro c c'
  have hnext : c.next = (some (.sym '('), c') := by decide +kernel
  obtain ⟨hinside, hbehind, hend⟩ := tokens_enclosed hnext
  have hne : (closeSpan 0 c'.tokens).1 ≠ (Cursor.start c'.enclosed.1).tokens := by decide +kernel
  have hclose : c'.closing (c'.position - 1) = 10 := by decide +kernel
  refine ⟨hnext, ?_, ?_, ?_, ?_⟩
  · decide +kernel
  · rcases hinside with hsame | ⟨-, -, hdashes⟩
    · exact absurd hsame hne
    · exact hdashes
  · rcases hend with ⟨-, hposition, -⟩ | ⟨hopen, -⟩
    · rw [hposition, hclose]
    · rw [hclose] at hopen
      exact absurd hopen (by decide)
  · rw [hbehind]
    decide +kernel

end SqlTables
