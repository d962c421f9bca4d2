import Mathlib.Tactic.IntervalCases
import SqlTables.Text.Utf8

/-!
# `SqlTables.Proofs.Text.Utf8` — the bytes of characters

A character is one byte of ASCII, or a first byte outside of ASCII with one to three tails. No tail can be
taken for a first byte, so bytes of characters can be cut in front of every byte that is no tail.

## Contents
- **`encode`** and **`Valid`**: the bytes of characters.
- **`decodeLossy_encode`**: they are read as these characters.
- **`isTail`**, **`exists_shape`** and **`valid_of_cut`**: where the bytes can be cut.
-/

namespace SqlTables.Utf8

/-- The bytes of characters. -/
def encode (chars : List Char) : Bytes := chars.flatMap String.utf8EncodeChar

/-- Bytes that are those of characters. -/
def Valid (bs : Bytes) : Prop := ∃ chars, bs = encode chars

variable {a b bs : Bytes} {x : UInt8} {c : Char} {chars : List Char} {k v : Nat}

theorem encode_nil : encode [] = [] := rfl

theorem encode_cons (c : Char) (chars : List Char) :
    encode (c :: chars) = String.utf8EncodeChar c ++ encode chars := rfl

theorem encode_append (front back : List Char) : encode (front ++ back) = encode front ++ encode back :=
  List.flatMap_append

theorem valid_nil : Valid [] := ⟨[], rfl⟩

theorem valid_append (ha : Valid a) (hb : Valid b) : Valid (a ++ b) := by
  obtain ⟨front, rfl⟩ := ha
  obtain ⟨back, rfl⟩ := hb
  exact ⟨front ++ back, (encode_append front back).symm⟩

/-- The bytes of a text are those of its characters. -/
theorem utf8_eq_encode (text : String) : utf8 text = encode text.toList := by
  have hbytes : text.toUTF8 = (encode text.toList).toByteArray := String.utf8Encode_toList.symm
  rw [utf8, hbytes]
  simp

theorem valid_utf8 (text : String) : Valid (utf8 text) := ⟨text.toList, utf8_eq_encode text⟩

/-! ## Reading characters back -/

/-- A byte of ASCII is a character at once. -/
theorem step_ascii (h : v < 128) : step none (UInt8.ofNat v) = ([Char.ofNat v], none) := by
  have hnat : (UInt8.ofNat v).toNat = v := UInt8.toNat_ofNat_of_lt' (Nat.lt_trans h (by decide))
  have hlt : UInt8.ofNat v < 0x80 := by
    rw [UInt8.lt_iff_toNat_lt, hnat]
    exact h
  rw [step, start, if_pos hlt, hnat]

/-- A first byte outside of ASCII leaves its character pending. -/
theorem step_lead {p : Pending} (h : lead? x = some p) (hx : 0x80 ≤ x) : step none x = ([], some p) := by
  rw [step, start, if_neg (UInt8.not_lt.mpr hx), h]

/-- A first byte outside of ASCII. -/
theorem outside_ascii (hlow : 128 ≤ v) (hhigh : v < 256) : (0x80 : UInt8) ≤ UInt8.ofNat v := by
  rw [UInt8.le_iff_toNat_le, UInt8.toNat_ofNat_of_lt' hhigh]
  exact hlow

/-- The first of two bytes holds five bits. -/
theorem lead?_two (hlow : 2 ≤ k) (hhigh : k < 32) :
    lead? (UInt8.ofNat (k + 192)) = some ⟨k, 0, 0x80, 0xBF⟩ := by
  interval_cases k <;> rfl

/-- The first of three bytes holds four bits. No surrogate and no value that needs fewer bytes may follow. -/
theorem lead?_three (h : k < 16) :
    lead? (UInt8.ofNat (k + 224)) =
      some ⟨k, 1, if k = 0 then 0xA0 else 0x80, if k = 13 then 0x9F else 0xBF⟩ := by
  interval_cases k <;> rfl

/-- The first of four bytes holds three bits. No value that needs fewer bytes or that is too large may
    follow. -/
theorem lead?_four (h : k ≤ 4) :
    lead? (UInt8.ofNat (k + 240)) =
      some ⟨k, 2, if k = 0 then 0x90 else 0x80, if k = 4 then 0x8F else 0xBF⟩ := by
  interval_cases k <;> rfl

theorem toNat_tail (hk : k < 64) : (UInt8.ofNat (k + 128)).toNat = k + 128 :=
  UInt8.toNat_ofNat_of_lt' (Nat.lt_of_lt_of_le (Nat.add_lt_add_right hk 128) (by decide))

/-- A tail adds its six bits to what is pending. -/
theorem step_tail {p : Pending} (hk : k < 64) (hlow : p.low.toNat ≤ k + 128)
    (hhigh : k + 128 ≤ p.high.toNat) :
    step (some p) (UInt8.ofNat (k + 128)) =
      match p.more with
      | 0 => ([Char.ofNat (p.value * 64 + k)], none)
      | more + 1 => ([], some ⟨p.value * 64 + k, more, 0x80, 0xBF⟩) := by
  have hnat := toNat_tail hk
  have hin : p.low ≤ UInt8.ofNat (k + 128) ∧ UInt8.ofNat (k + 128) ≤ p.high := by
    rw [UInt8.le_iff_toNat_le, UInt8.le_iff_toNat_le, hnat]
    exact ⟨hlow, hhigh⟩
  rw [step, if_pos hin]
  cases p.more with
  | zero => simp only [hnat, Nat.add_sub_cancel]
  | succ more => simp only [hnat, Nat.add_sub_cancel]

theorem decodeFrom_step {state state' : Option Pending} (h : step state x = ([], state')) (rest : Bytes) :
    decodeFrom state (x :: rest) = decodeFrom state' rest := by
  rw [decodeFrom, h]
  rfl

theorem decodeFrom_last {state : Option Pending} (h : step state x = ([c], none)) (rest : Bytes) :
    decodeFrom state (x :: rest) = c :: decodeFrom none rest := by
  rw [decodeFrom, h]
  rfl

/-- Where every tail can follow, it is taken in. -/
theorem step_free (hk : k < 64) (value more : Nat) :
    step (some ⟨value, more, 0x80, 0xBF⟩) (UInt8.ofNat (k + 128)) =
      match more with
      | 0 => ([Char.ofNat (value * 64 + k)], none)
      | more + 1 => ([], some ⟨value * 64 + k, more, 0x80, 0xBF⟩) :=
  step_tail hk (Nat.le_add_left 128 k) (Nat.add_le_add_right (Nat.le_of_lt_succ hk) 128)

/-- Two bytes are read as the value that they were made of. -/
theorem decodeFrom_two (hlow : 128 ≤ v) (hhigh : v < 2048) (rest : Bytes) :
    decodeFrom none (UInt8.ofNat (v / 64 % 32 + 192) :: UInt8.ofNat (v % 64 + 128) :: rest) =
      Char.ofNat v :: decodeFrom none rest := by
  have hlead := lead?_two (k := v / 64 % 32) (by omega) (by omega)
  have hsum : v / 64 % 32 * 64 + v % 64 = v := by omega
  rw [decodeFrom_step (step_lead hlead (outside_ascii (by omega) (by omega))),
    decodeFrom_last (step_free (Nat.mod_lt _ (by decide)) _ 0), hsum]

/-- Three bytes are read as the value that they were made of, if it is no surrogate. -/
theorem decodeFrom_three (hlow : 2048 ≤ v) (hhigh : v < 65536) (hv : v < 0xD800 ∨ 0xDFFF < v)
    (rest : Bytes) :
    decodeFrom none (UInt8.ofNat (v / 4096 % 16 + 224) :: UInt8.ofNat (v / 64 % 64 + 128) ::
        UInt8.ofNat (v % 64 + 128) :: rest) = Char.ofNat v :: decodeFrom none rest := by
  have hlead := lead?_three (k := v / 4096 % 16) (by omega)
  have hsum : (v / 4096 % 16 * 64 + v / 64 % 64) * 64 + v % 64 = v := by omega
  -- No needlessly long form, and no surrogate.
  have hfrom : (if v / 4096 % 16 = 0 then 0xA0 else 0x80 : UInt8).toNat ≤ v / 64 % 64 + 128 := by
    split
    · simp only [UInt8.reduceToNat]
      omega
    · exact Nat.le_add_left 128 _
  have hto : v / 64 % 64 + 128 ≤ (if v / 4096 % 16 = 13 then 0x9F else 0xBF : UInt8).toNat := by
    split
    · simp only [UInt8.reduceToNat]
      omega
    · simp only [UInt8.reduceToNat]
      omega
  rw [decodeFrom_step (step_lead hlead (outside_ascii (by omega) (by omega))),
    decodeFrom_step (step_tail (Nat.mod_lt _ (by decide)) hfrom hto),
    decodeFrom_last (step_free (Nat.mod_lt _ (by decide)) _ 0), hsum]

/-- Four bytes are read as the value that they were made of. -/
theorem decodeFrom_four (hlow : 65536 ≤ v) (hhigh : v < 0x110000) (rest : Bytes) :
    decodeFrom none (UInt8.ofNat (v / 262144 % 8 + 240) :: UInt8.ofNat (v / 4096 % 64 + 128) ::
        UInt8.ofNat (v / 64 % 64 + 128) :: UInt8.ofNat (v % 64 + 128) :: rest) =
      Char.ofNat v :: decodeFrom none rest := by
  have hlead := lead?_four (k := v / 262144 % 8) (by omega)
  have hsum : ((v / 262144 % 8 * 64 + v / 4096 % 64) * 64 + v / 64 % 64) * 64 + v % 64 = v := by omega
  -- No needlessly long form, and nothing past the last character.
  have hfrom : (if v / 262144 % 8 = 0 then 0x90 else 0x80 : UInt8).toNat ≤ v / 4096 % 64 + 128 := by
    split
    · simp only [UInt8.reduceToNat]
      omega
    · exact Nat.le_add_left 128 _
  have hto : v / 4096 % 64 + 128 ≤ (if v / 262144 % 8 = 4 then 0x8F else 0xBF : UInt8).toNat := by
    split
    · simp only [UInt8.reduceToNat]
      omega
    · simp only [UInt8.reduceToNat]
      omega
  rw [decodeFrom_step (step_lead hlead (outside_ascii (by omega) (by omega))),
    decodeFrom_step (step_tail (Nat.mod_lt _ (by decide)) hfrom hto),
    decodeFrom_step (step_free (Nat.mod_lt _ (by decide)) _ 1),
    decodeFrom_last (step_free (Nat.mod_lt _ (by decide)) _ 0), hsum]

/-- The bytes of a character are read as this character, by the number of its bytes. -/
theorem decodeFrom_encodeChar (c : Char) (rest : Bytes) :
    decodeFrom none (String.utf8EncodeChar c ++ rest) = c :: decodeFrom none rest := by
  have hchar : Char.ofNat c.val.toNat = c := Char.ofNat_toNat c
  have hvalid : c.val.toNat < 0xD800 ∨ 0xDFFF < c.val.toNat ∧ c.val.toNat < 0x110000 := c.valid
  unfold String.utf8EncodeChar
  simp only
  split
  · rw [List.singleton_append, decodeFrom_last (step_ascii (by omega)), hchar]
  · split
    · simp only [List.cons_append, List.nil_append]
      rw [decodeFrom_two (by omega) (by omega), hchar]
    · split
      · simp only [List.cons_append, List.nil_append]
        rw [decodeFrom_three (by omega) (by omega) (by omega), hchar]
      · simp only [List.cons_append, List.nil_append]
        rw [decodeFrom_four (by omega) (by omega), hchar]

/-- Bytes of characters are read as these characters. -/
theorem decodeLossy_encode (chars : List Char) : decodeLossy (encode chars) = chars := by
  unfold decodeLossy
  induction chars with
  | nil => rfl
  | cons c chars ih => rw [encode_cons, decodeFrom_encodeChar, ih]

/-! ## Cuts -/

/-- Whether a byte can only stand behind the first byte of a character. -/
def isTail (x : UInt8) : Bool := 0x80 ≤ x && x < 0xC0

/-- Six bits behind the mark of a tail are a tail. -/
theorem isTail_mod (v : Nat) : isTail (UInt8.ofNat (v % 64 + 128)) = true := by
  have hnat : (UInt8.ofNat (v % 64 + 128)).toNat = v % 64 + 128 := toNat_tail (Nat.mod_lt v (by decide))
  simp only [isTail, UInt8.le_iff_toNat_le, UInt8.lt_iff_toNat_lt, UInt8.reduceToNat, hnat,
    Bool.and_eq_true, decide_eq_true_eq]
  omega

theorem not_isTail_of_ascii (h : x < 0x80) : isTail x = false := by
  rw [isTail, Bool.and_eq_false_iff]
  left
  exact decide_eq_false (UInt8.not_le.mpr h)

/-- No first byte outside of ASCII is a tail. -/
theorem not_isTail_ofNat (hlow : 192 ≤ v) (hhigh : v < 256) : isTail (UInt8.ofNat v) = false := by
  rw [isTail, Bool.and_eq_false_iff]
  right
  simp only [decide_eq_false_iff_not, UInt8.lt_iff_toNat_lt, UInt8.toNat_ofNat_of_lt' hhigh,
    UInt8.reduceToNat]
  omega

/-- How a character is written: as itself, or as a first byte and tails. -/
inductive Shape : Bytes → Prop where
  | ascii {x : UInt8} : x < 0x80 → Shape [x]
  | wide {x : UInt8} {tails : Bytes} :
      0x80 ≤ x → isTail x = false → (∀ y ∈ tails, isTail y = true) → Shape (x :: tails)

/-- The bytes of a character are one of ASCII, or a first byte with tails. -/
theorem shape_encodeChar (c : Char) : Shape (String.utf8EncodeChar c) := by
  have hvalid : c.val.toNat < 0xD800 ∨ 0xDFFF < c.val.toNat ∧ c.val.toNat < 0x110000 := c.valid
  have wide {v : Nat} {tails : Bytes} (hlow : 192 ≤ v) (hhigh : v < 256)
      (htails : ∀ y ∈ tails, isTail y = true) : Shape (UInt8.ofNat v :: tails) :=
    .wide (outside_ascii (Nat.le_trans (by decide) hlow) hhigh) (not_isTail_ofNat hlow hhigh) htails
  unfold String.utf8EncodeChar
  simp only
  split
  · apply Shape.ascii
    rw [UInt8.lt_iff_toNat_lt, UInt8.toNat_ofNat_of_lt' (Nat.lt_of_le_of_lt ‹_› (by decide))]
    exact Nat.lt_succ_of_le ‹_›
  · split
    · exact wide (by omega) (by omega) (List.forall_mem_singleton.mpr (isTail_mod _))
    · split
      · refine wide (by omega) (by omega) (List.forall_mem_cons.mpr ⟨isTail_mod _, ?_⟩)
        exact List.forall_mem_singleton.mpr (isTail_mod _)
      · refine wide (by omega) (by omega) (List.forall_mem_cons.mpr ⟨isTail_mod _, ?_⟩)
        refine List.forall_mem_cons.mpr ⟨isTail_mod _, ?_⟩
        exact List.forall_mem_singleton.mpr (isTail_mod _)

/-- A byte of ASCII is a character. -/
theorem valid_ascii (hx : x < 0x80) : Valid [x] := by
  have hnat : x.toNat < 128 := UInt8.lt_iff_toNat_lt.mp hx
  have hchar : (Char.ofNat x.toNat).val.toNat = x.toNat := by
    have hvalid : x.toNat.isValidChar := Or.inl (Nat.lt_trans hnat (by decide))
    rw [Char.ofNat, dif_pos hvalid]
    rfl
  refine ⟨[Char.ofNat x.toNat], ?_⟩
  rw [encode_cons, encode_nil, List.append_nil, String.utf8EncodeChar]
  simp only [hchar]
  rw [if_pos (Nat.le_of_lt_succ hnat), UInt8.ofNat_toNat]

/-- In front of a byte that is no tail, and at their end, bytes of characters can be cut. -/
theorem valid_of_cut (h : Valid (a ++ b)) (hb : ∀ x, b.head? = some x → isTail x = false) :
    Valid a ∧ Valid b := by
  obtain ⟨chars, h⟩ := h
  -- On the characters of the whole: the cut lies in the first one or behind it.
  induction chars generalizing a with
  | nil =>
      obtain ⟨rfl, rfl⟩ := List.append_eq_nil_iff.mp h
      exact ⟨valid_nil, valid_nil⟩
  | cons c chars ih =>
      rcases List.append_eq_append_iff.mp h with ⟨inner, hc, hrest⟩ | ⟨front, rfl, hrest⟩
      · -- The cut lies in the first character: only at one of its ends there is no tail behind it.
        cases a with
        | nil => exact ⟨valid_nil, c :: chars, h⟩
        | cons x a =>
            cases inner with
            | nil =>
                rw [List.append_nil] at hc
                refine ⟨⟨[c], ?_⟩, ⟨chars, hrest⟩⟩
                rw [encode_cons, encode_nil, List.append_nil, hc]
            | cons y inner =>
                subst hrest
                have hshape := shape_encodeChar c
                rw [hc] at hshape
                have htail : isTail y = true := by
                  generalize hbytes : x :: a ++ y :: inner = bytes at hshape
                  cases hshape with
                  | ascii => simp at hbytes
                  | wide _ _ htails =>
                      rw [List.cons_append, List.cons.injEq] at hbytes
                      obtain ⟨-, rfl⟩ := hbytes
                      exact htails y (List.mem_append_right _ List.mem_cons_self)
                rw [hb y rfl] at htail
                cases htail
      · obtain ⟨hfront, hback⟩ := ih hrest.symm
        exact ⟨valid_append ⟨[c], (List.append_nil _).symm⟩ hfront, hback⟩

/-- The first byte of a character is no tail. -/
theorem head_of_valid (h : Valid bs) : ∀ x, bs.head? = some x → isTail x = false := by
  intro x hx
  obtain ⟨chars, rfl⟩ := h
  cases chars with
  | nil => cases hx
  | cons c chars =>
      have hshape := shape_encodeChar c
      rw [encode_cons] at hx
      generalize String.utf8EncodeChar c = bytes at hx hshape
      cases hshape with
      | ascii hascii =>
          rw [← Option.some.inj hx]
          exact not_isTail_of_ascii hascii
      | wide _ hlead _ =>
          rw [← Option.some.inj hx]
          exact hlead

/-- A byte of ASCII is a character of its own. -/
theorem valid_of_ascii (hx : x < 0x80) (h : Valid (a ++ x :: b)) : Valid a ∧ Valid b := by
  have hhead (b : Bytes) : ∀ y, (x :: b).head? = some y → isTail y = false := by
    intro y hy
    obtain rfl := Option.some.inj hy
    exact not_isTail_of_ascii hx
  obtain ⟨ha, hback⟩ := valid_of_cut h (hhead b)
  obtain ⟨chars, hchars⟩ := hback
  cases chars with
  | nil => cases hchars
  | cons c chars =>
      have hshape := shape_encodeChar c
      rw [encode_cons] at hchars
      generalize String.utf8EncodeChar c = bytes at hchars hshape
      cases hshape with
      | ascii => exact ⟨ha, chars, (List.cons.inj hchars).2⟩
      | wide hwide _ _ =>
          rw [(List.cons.inj hchars).1] at hx
          exact absurd hx (UInt8.not_lt.mpr hwide)

end SqlTables.Utf8
