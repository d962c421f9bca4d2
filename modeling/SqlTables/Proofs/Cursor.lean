import SqlTables.Cursor

/-!
# `SqlTables.Proofs.Cursor` — a cursor and the bytes in front of it

Whatever a cursor reads depends only on the bytes from its offset on, and whatever it does leaves it in
front of some end of them. So a statement about offsets is one about ends of the text.

## Contents
- **`offset`**: where an end of the text starts, with `drop_offset` and `offset_append`.
- **`offset_rest`**, `rest_moveTo`, `peekByte?_eq_head?`: the bytes in front of a cursor.
- **`next_eq_some_iff`**, `next_eq_none_iff`: one token.
- **`Cursor.tokens`**: all tokens that a cursor goes on to read, with `tokens_eq`.
-/

namespace SqlTables

/-! ## Ends of a text -/

/-- Where an end of the text starts. -/
def offset (text rest : Bytes) : Nat := text.length - rest.length

variable {text bs rest : Bytes} {b : UInt8} {i n : Nat}

theorem drop_offset (h : rest <:+ text) : text.drop (offset text rest) = rest :=
  (List.suffix_iff_eq_drop.mp h).symm

theorem getElem?_offset (h : rest <:+ text) (k : Nat) : text[offset text rest + k]? = rest[k]? := by
  rw [← List.getElem?_drop, drop_offset h]

theorem getElem?_offset_cons (h : b :: rest <:+ text) : text[offset text (b :: rest)]? = some b :=
  getElem?_offset h 0

theorem offset_nil (text : Bytes) : offset text [] = text.length := rfl

theorem offset_le (text rest : Bytes) : offset text rest ≤ text.length := Nat.sub_le _ _

/-- Every offset of a text is that of an end of it. -/
theorem exists_suffix (h : i ≤ text.length) : ∃ rest, rest <:+ text ∧ offset text rest = i := by
  refine ⟨text.drop i, List.drop_suffix i text, ?_⟩
  rw [offset, List.length_drop]
  omega

/-- Behind a part of the text. -/
theorem offset_append (part : Bytes) (h : part ++ rest <:+ text) :
    offset text (part ++ rest) + part.length = offset text rest := by
  have hle := h.length_le
  simp only [offset, List.length_append] at hle ⊢
  omega

/-- One byte further on. -/
theorem offset_cons (h : b :: rest <:+ text) : offset text (b :: rest) + 1 = offset text rest :=
  offset_append [b] h

theorem offset_drop (h : bs <:+ text) (hn : n ≤ bs.length) :
    offset text (bs.drop n) = offset text bs + n := by
  have hpart : bs.take n ++ bs.drop n <:+ text := (List.take_append_drop n bs).symm ▸ h
  rw [← offset_append _ hpart, List.take_append_drop, List.length_take_of_le hn]

namespace Cursor

/-! ## The bytes in front of a cursor -/

theorem rest_suffix (c : Cursor) : c.rest <:+ c.text := List.drop_suffix _ _

/-- What is left of the text starts at the position. -/
theorem offset_rest {c : Cursor} (h : c.position ≤ c.text.length) : offset c.text c.rest = c.position := by
  rw [Cursor.rest, offset_drop List.suffix_rfl h, offset, Nat.sub_self, Nat.zero_add]

theorem rest_moveTo {c : Cursor} (h : rest <:+ c.text) : (c.moveTo rest).rest = rest :=
  drop_offset h

theorem peekByte?_eq_head? (c : Cursor) : c.peekByte? = c.rest.head? := List.head?_drop.symm

theorem rest_skipGap (c : Cursor) : c.skipGap.rest = SqlTables.skipGap c.rest :=
  rest_moveTo ((skipGap_suffix c.rest).trans c.rest_suffix)

theorem position_skipGap (c : Cursor) :
    c.skipGap.position = offset c.text (SqlTables.skipGap c.rest) := rfl

/-! ## One token -/

theorem nextToken?_rest_suffix {c : Cursor} {t : Token} (h : c.rest.nextToken? = some (t, rest)) :
    rest <:+ c.text :=
  (suffix_of_nextToken? h).trans c.rest_suffix

/-- A cursor returns the next token of what is left, and moves behind it. -/
theorem next_eq_some_iff {c c' : Cursor} {t : Token} :
    c.next = (some t, c') ↔ ∃ rest, c.rest.nextToken? = some (t, rest) ∧ c' = c.moveTo rest := by
  unfold next
  cases h : c.rest.nextToken? with
  | none => simp
  | some r =>
      obtain ⟨u, rest⟩ := r
      simp only [Prod.mk.injEq, Option.some.injEq]
      constructor
      · rintro ⟨rfl, rfl⟩
        exact ⟨rest, ⟨rfl, rfl⟩, rfl⟩
      · rintro ⟨_, ⟨rfl, rfl⟩, rfl⟩
        exact ⟨rfl, rfl⟩

/-- A cursor returns no token where none is left, and then moves to the end. -/
theorem next_eq_none_iff {c c' : Cursor} :
    c.next = (none, c') ↔ c.rest.nextToken? = none ∧ c' = c.moveTo [] := by
  unfold next
  cases h : c.rest.nextToken? with
  | none => simp [eq_comm]
  | some r => simp

/-- Behind a token the cursor stands in front of what follows it. -/
theorem rest_of_next {c c' : Cursor} {t : Token} (h : c.next = (some t, c')) :
    c.rest.nextToken? = some (t, c'.rest) ∧ c'.text = c.text ∧
      c'.position = offset c.text c'.rest := by
  obtain ⟨rest, hnext, rfl⟩ := next_eq_some_iff.mp h
  have hrest := rest_moveTo (nextToken?_rest_suffix hnext)
  rw [hrest]
  exact ⟨hnext, rfl, rfl⟩

theorem length_rest_lt {c c' : Cursor} {t : Token} (h : c.next = (some t, c')) :
    c'.rest.length < c.rest.length :=
  length_lt_of_nextToken? (rest_of_next h).1

/-! ## All tokens -/

/-- All tokens that a cursor goes on to read, one after another. -/
def tokens (c : Cursor) : List Token :=
  match _h : c.next with
  | (some t, c') => t :: tokens c'
  | (none, _) => []
termination_by c.rest.length
decreasing_by exact length_rest_lt ‹_›

/-- A cursor reads the tokens of the bytes in front of it. -/
theorem tokens_eq (c : Cursor) : c.tokens = c.rest.tokens := by
  fun_induction tokens c with
  | case1 c t c' h ih => rw [ih, tokens_of_nextToken? (rest_of_next h).1]
  | case2 c c' h => rw [tokens_of_nextToken?_none (next_eq_none_iff.mp h).1]

end Cursor

end SqlTables
