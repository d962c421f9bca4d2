import SqlTables.Token

/-!
# `SqlTables.Token.Quoted` — where a quoted text ends

Inside quotes a doubled delimiter stands for one of them, and in strings a backslash escapes the byte
after it. A quoted text that is never closed runs to the end of the statement.

## Contents
- **`Quote.closing?`**: the offset of the closing delimiter, found by jumping from one delimiter or
  backslash to the next.
- **`Quote.split`**: the content and what follows the closing delimiter.
- **`Quote.collapse`** and **`Quote.encode`**: the name that a content spells, and back.
-/

namespace SqlTables

namespace Quote

/-- Whether a byte of the content may end it or take the next byte with it. -/
def isMark (q : Quote) (b : UInt8) : Bool := b == q.byte || q.escapes && b == '\\'.toUInt8

/-- The offset of the closing delimiter in what follows the opening one. A backslash that escapes and
    the first of two delimiters are passed together with the byte after them. -/
def closing? (q : Quote) (bs : Bytes) : Option Nat :=
  match bs.findIdx? q.isMark with
  | none => none
  | some n =>
      match _h : bs.drop n with
      | [] => none
      | b :: rest =>
          if b = '\\'.toUInt8 ∨ rest.head? = some q.byte then
            (closing? q (rest.drop 1)).map (n + 2 + ·)
          else some n
termination_by bs.length
decreasing_by
  have := congrArg List.length ‹List.drop _ bs = _›
  simp only [List.length_drop, List.length_cons] at this ⊢
  omega

/-- The search for the closing delimiter, one mark at a time. -/
theorem closing?_eq (q : Quote) (bs : Bytes) :
    closing? q bs = match bs.findIdx? q.isMark with
      | none => none
      | some n =>
          match bs.drop n with
          | [] => none
          | b :: rest =>
              if b = '\\'.toUInt8 ∨ rest.head? = some q.byte then
                (closing? q (rest.drop 1)).map (n + 2 + ·)
              else some n := by
  rw [closing?]
  split
  · rfl
  · split <;> next hd => rw [hd]

/-- The closing delimiter stands within the bytes. -/
theorem lt_length_of_closing? {q : Quote} {bs : Bytes} {n : Nat} (h : q.closing? bs = some n) :
    n < bs.length := by
  fun_induction closing? q bs generalizing n with
  | case1 bs hf => cases h
  | case2 bs m hf hd => cases h
  | case3 bs m hf b rest hd hb ih =>
      have hlen := congrArg List.length hd
      obtain ⟨k, hk, rfl⟩ := Option.map_eq_some_iff.mp h
      have := ih hk
      simp only [List.length_drop, List.length_cons] at hlen this
      omega
  | case4 bs m hf b rest hd hb =>
      have hlen := congrArg List.length hd
      cases h
      simp only [List.length_drop, List.length_cons] at hlen
      omega

/-- The content of the quoted text whose opening delimiter has just been passed, and what follows its
    closing one. -/
def split (q : Quote) (bs : Bytes) : Bytes × Bytes :=
  match q.closing? bs with
  | some n => (bs.take n, bs.drop (n + 1))
  | none => (bs, [])

theorem split_rest_suffix (q : Quote) (bs : Bytes) : (q.split bs).2 <:+ bs := by
  unfold split
  split
  · exact List.drop_suffix _ _
  · exact List.nil_suffix

/-! ## The name that a content spells -/

/-- Each doubled delimiter, read from the left, as a single one. -/
def collapse (q : Quote) : Bytes → Bytes
  | [] => []
  | [b] => [b]
  | b :: c :: rest =>
      if b = q.byte ∧ c = q.byte then b :: collapse q rest else b :: collapse q (c :: rest)

/-- A name with each delimiter doubled, as it is written between two delimiters. -/
def encode (q : Quote) (name : Bytes) : Bytes :=
  name.flatMap fun b => if b = q.byte then [b, b] else [b]

end Quote

end SqlTables
