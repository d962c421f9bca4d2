import SqlTables.Proofs.Cursor
import SqlTables.Proofs.Token.Content
import SqlTables.Proofs.Token.Prefix

/-!
# `SqlTables.Proofs.Cursor.Access` — no access to the text goes wrong

Reading by position needs single bytes, slices and a count of parentheses that is counted down. Here all of
them are checked: a byte behind the end of the text, a slice whose bounds are out of order or out of the text,
and a count below zero are faults. None of them ever happens, and what the checked routines answer is what a
cursor answers.

## Contents
- **`Fault`** and the checked accesses `Access.byte`, `Access.slice` and `Access.minus`.
- **The routines**: `skipComment`, `skipGap`, `skipQuoted`, `next`, `closing` and `enclosed`, each with a
  lemma that says what it answers in front of an end of the text.
- **Behind the end**, where a search for a parenthesis may start.
-/

namespace SqlTables

/-- An access that the text does not allow. -/
inductive Fault where
  /-- There is no byte at this offset. -/
  | index (i : Nat)
  /-- The offsets are out of order, or the second one is behind the end. -/
  | slice (i j : Nat)
  /-- The second number is larger than the first. -/
  | minus (a b : Nat)
  deriving DecidableEq

namespace Access

variable {text bs rest part : Bytes} {b : UInt8} {q : Quote} {i n : Nat}

/-! ## Checked accesses -/

/-- The byte at an offset. -/
def byte (text : Bytes) (i : Nat) : Except Fault UInt8 :=
  match text[i]? with
  | some b => .ok b
  | none => .error (.index i)

/-- The bytes from one offset up to another. -/
def slice (text : Bytes) (i j : Nat) : Except Fault Bytes :=
  if i ≤ j ∧ j ≤ text.length then .ok ((text.take j).drop i) else .error (.slice i j)

/-- A difference that is not negative. -/
def minus (a b : Nat) : Except Fault Nat := if b ≤ a then .ok (a - b) else .error (.minus a b)

theorem byte_eq (h : text[i]? = some b) : byte text i = .ok b := by
  unfold byte
  rw [h]

theorem ok_bind {α β : Type} (a : α) (f : α → Except Fault β) : (.ok a >>= f) = f a := rfl

theorem lt_length_of_byte (h : byte text i = .ok b) : i < text.length := by
  apply Nat.lt_of_not_le
  intro hle
  rw [byte, List.getElem?_eq_none hle] at h
  cases h

theorem bind_eq_ok {α β : Type} {x : Except Fault α} {f : α → Except Fault β} {r : β} :
    (x >>= f) = .ok r ↔ ∃ a, x = .ok a ∧ f a = .ok r := by
  cases x with
  | error fault => simp [bind, Except.bind]
  | ok a => simp [bind, Except.bind]

/-- What stands between the offsets of two ends of the text is the part that the longer one has in front. -/
theorem slice_append (h : part ++ rest <:+ text) :
    slice text (offset text (part ++ rest)) (offset text rest) = .ok part := by
  have hoffset := offset_append _ h
  unfold slice
  rw [if_pos ⟨by omega, offset_le text rest⟩, List.drop_take, drop_offset h, ← hoffset,
    Nat.add_sub_cancel_left, List.take_left]

theorem slice_take (h : bs <:+ text) (hn : n ≤ bs.length) :
    slice text (offset text bs) (offset text bs + n) = .ok (bs.take n) := by
  have hpart : bs.take n ++ bs.drop n <:+ text := (List.take_append_drop n bs).symm ▸ h
  have hslice := slice_append hpart
  rwa [List.take_append_drop, offset_drop h hn] at hslice

theorem slice_rest (h : rest <:+ text) :
    slice text (offset text rest) text.length = .ok rest := by
  unfold slice
  rw [if_pos ⟨offset_le text rest, Nat.le_refl _⟩, List.take_length, drop_offset h]

/-! ## Runs of bytes -/

/-- Passes the bytes of a class from an offset on. -/
def skipWhile (p : UInt8 → Bool) (text : Bytes) (i : Nat) : Nat :=
  match _h : text[i]? with
  | some b => if p b then skipWhile p text (i + 1) else i
  | none => i
termination_by text.length - i
decreasing_by
  obtain ⟨hlt, -⟩ := List.getElem?_eq_some_iff.mp ‹text[i]? = some _›
  omega

/-- The loop unfolded once. It looks at a byte only where there is one. -/
theorem skipWhile_eq (p : UInt8 → Bool) (text : Bytes) (i : Nat) :
    skipWhile p text i = match text[i]? with
      | some b => if p b then skipWhile p text (i + 1) else i
      | none => i := by
  rw [skipWhile]
  split <;> next h => rw [h]

theorem le_skipWhile (p : UInt8 → Bool) (text : Bytes) (i : Nat) : i ≤ skipWhile p text i := by
  fun_induction skipWhile p text i with
  | case1 i b h hp ih => omega
  | case2 i b h hp => exact Nat.le_refl i
  | case3 i h => exact Nat.le_refl i

theorem skipWhile_of_length_le (p : UInt8 → Bool) (h : text.length ≤ i) : skipWhile p text i = i := by
  rw [skipWhile_eq, List.getElem?_eq_none h]

/-- From the start of an end of the text the loop goes to the start of what `dropWhile` leaves of it. -/
theorem skipWhile_offset (p : UInt8 → Bool) (h : bs <:+ text) :
    skipWhile p text (offset text bs) = offset text (bs.dropWhile p) := by
  induction bs with
  | nil => exact skipWhile_of_length_le p (Nat.le_refl _)
  | cons b rest ih =>
      rw [skipWhile_eq, getElem?_offset_cons h]
      by_cases hp : p b = true
      · simp only [if_pos hp]
        rw [List.dropWhile_cons_of_pos hp, offset_cons h, ih ((List.suffix_cons b rest).trans h)]
      · simp only [if_neg hp]
        rw [List.dropWhile_cons_of_neg hp]

/-! ## Comments -/

/-- Whether a comment starts at an offset. -/
def startsComment (text : Bytes) (i : Nat) : Bool :=
  match text[i]? with
  | none => false
  | some b =>
      if b = '#'.toUInt8 then true
      else if b = '-'.toUInt8 then
        text[i + 1]? == some '-'.toUInt8 && text[i + 2]?.all isSeparator
      else if b = '/'.toUInt8 then text[i + 1]? == some '*'.toUInt8
      else false

/-- What a comment starts with, told by the bytes at the first three offsets. -/
theorem startsComment_getElem? (bs : Bytes) :
    SqlTables.startsComment bs =
      match bs[0]? with
      | none => false
      | some b =>
          if b = '#'.toUInt8 then true
          else if b = '-'.toUInt8 then bs[1]? == some '-'.toUInt8 && bs[2]?.all isSeparator
          else if b = '/'.toUInt8 then bs[1]? == some '*'.toUInt8
          else false := by
  cases bs with
  | nil => decide
  | cons b tail =>
      rw [Bool.eq_iff_iff, SqlTables.startsComment, Bool.or_eq_true, startsLineComment_cons,
        startsBlockComment_iff]
      simp only [List.getElem?_cons_zero, List.getElem?_cons_succ]
      by_cases hash : b = '#'.toUInt8
      · simp [hash]
      · by_cases hdash : b = '-'.toUInt8
        · have hslash : '-'.toUInt8 ≠ '/'.toUInt8 := by decide
          -- The two dashes and the separator behind them, as parts of a list and by their offsets.
          have hcut : (∃ more, tail = '-'.toUInt8 :: more ∧ more.head?.all isSeparator = true) ↔
              tail[0]? = some '-'.toUInt8 ∧ tail[1]?.all isSeparator = true := by
            constructor
            · rintro ⟨more, rfl, hsep⟩
              exact ⟨rfl, by simpa [← List.head?_eq_getElem?] using hsep⟩
            · rintro ⟨hdash, hsep⟩
              rw [← List.head?_eq_getElem?, List.head?_eq_some_iff] at hdash
              obtain ⟨more, rfl⟩ := hdash
              exact ⟨more, rfl, by simpa [← List.head?_eq_getElem?] using hsep⟩
          rw [hcut]
          simp [hdash, hslash]
        · by_cases hslash : b = '/'.toUInt8
          · subst hslash
            cases tail with
            | nil => simp [hash, hdash]
            | cons c more => simp [hash, hdash]
          · simp [hash, hdash, hslash]

theorem startsComment_of_length_le (h : text.length ≤ i) : startsComment text i = false := by
  rw [startsComment, List.getElem?_eq_none h]

theorem startsComment_offset (h : bs <:+ text) :
    startsComment text (offset text bs) = SqlTables.startsComment bs := by
  have hat := getElem?_offset h
  have hfirst : text[offset text bs]? = bs[0]? := hat 0
  rw [startsComment, hfirst, hat 1, hat 2, startsComment_getElem?]

/-- Passes the comment at an offset; says whether there was one. -/
def skipComment (text : Bytes) (i : Nat) : Except Fault (Bool × Nat) := do
  if startsComment text i then
    if (← byte text i) = '/'.toUInt8 then
      let body ← slice text (i + 2) text.length
      match Bytes.offset? (ascii "*/") body with
      | some n => return (true, i + 2 + n + 2)
      | none => return (true, text.length)
    else
      let line ← slice text i text.length
      match line.findIdx? (· == '\n'.toUInt8) with
      | some n => return (true, i + n + 1)
      | none => return (true, text.length)
  else return (false, i)

theorem skipComment_of_not_starts (h : startsComment text i = false) :
    skipComment text i = .ok (false, i) := by
  rw [skipComment, h]
  rfl

/-- A comment up to the end of its line. -/
theorem skipComment_line (h : bs <:+ text) (hline : startsLineComment bs = true) :
    skipComment text (offset text bs) = .ok (true, offset text (afterLine bs)) := by
  have hstart : startsComment text (offset text bs) = true := by
    rw [startsComment_offset h, SqlTables.startsComment, hline, Bool.true_or]
  cases bs with
  | nil => exact absurd hline (by decide)
  | cons b tail =>
      have hb : b ≠ '/'.toUInt8 := ne_slash_of_startsLineComment hline
      have hbyte : byte text (offset text (b :: tail)) = .ok b := byte_eq (getElem?_offset_cons h)
      rw [skipComment, if_pos hstart, hbyte, ok_bind, if_neg hb, slice_rest h, ok_bind]
      unfold afterLine
      cases hn : (b :: tail).findIdx? (· == '\n'.toUInt8) with
      | none => rfl
      | some n =>
          obtain ⟨hlt, -⟩ := List.findIdx?_eq_some_iff_getElem.mp hn
          simp only [offset_drop h hlt]
          rfl

/-- A comment in block marks. Both bytes of its opening mark are there to be passed. -/
theorem skipComment_block (h : bs <:+ text) (hblock : startsBlockComment bs = true) :
    skipComment text (offset text bs) = .ok (true, offset text (afterBlock (bs.drop 2))) := by
  have hstart : startsComment text (offset text bs) = true := by
    rw [startsComment_offset h, SqlTables.startsComment, hblock, Bool.or_true]
  obtain ⟨tail, rfl⟩ := startsBlockComment_iff.mp hblock
  have hbyte : byte text (offset text ('/'.toUInt8 :: '*'.toUInt8 :: tail)) = .ok '/'.toUInt8 :=
    byte_eq (getElem?_offset_cons h)
  have htail : tail <:+ text := (List.suffix_append ['/'.toUInt8, '*'.toUInt8] tail).trans h
  have hbody : offset text ('/'.toUInt8 :: '*'.toUInt8 :: tail) + 2 = offset text tail :=
    offset_append ['/'.toUInt8, '*'.toUInt8] h
  rw [skipComment, if_pos hstart, hbyte, ok_bind, if_pos rfl, hbody, slice_rest htail, ok_bind,
    List.drop_succ_cons, List.drop_succ_cons, List.drop_zero]
  unfold afterBlock
  cases hn : Bytes.offset? (ascii "*/") tail with
  | none => rfl
  | some n =>
      have hle : n + 2 ≤ tail.length := offset?_le hn
      simp only [offset_drop htail hle, Nat.add_assoc]
      rfl

/-- Where a comment starts, the checked search for its end goes without a fault and ends behind it. -/
theorem skipComment_offset (h : bs <:+ text) (hafter : afterComment? bs = some rest) :
    skipComment text (offset text bs) = .ok (true, offset text rest) := by
  unfold afterComment? at hafter
  by_cases hline : startsLineComment bs = true
  · rw [if_pos hline] at hafter
    cases hafter
    exact skipComment_line h hline
  · rw [if_neg hline] at hafter
    by_cases hblock : startsBlockComment bs = true
    · rw [if_pos hblock] at hafter
      cases hafter
      exact skipComment_block h hblock
    · rw [if_neg hblock] at hafter
      cases hafter

theorem skipComment_offset_of_none (h : bs <:+ text) (hafter : afterComment? bs = none) :
    skipComment text (offset text bs) = .ok (false, offset text bs) := by
  apply skipComment_of_not_starts
  rw [startsComment_offset h]
  exact afterComment?_eq_none_iff.mp hafter

/-! ## Gaps -/

/-- A comment is passed from within the text, and onwards. -/
theorem skipComment_lt {j : Nat} (h : skipComment text i = .ok (true, j)) :
    i < text.length ∧ i < j := by
  have hlt : i < text.length := by
    apply Nat.lt_of_not_le
    intro hle
    rw [skipComment_of_not_starts (startsComment_of_length_le hle)] at h
    cases h
  refine ⟨hlt, ?_⟩
  obtain ⟨bs, hbs, rfl⟩ := exists_suffix (Nat.le_of_lt hlt)
  cases hafter : afterComment? bs with
  | none =>
      rw [skipComment_offset_of_none hbs hafter] at h
      cases h
  | some rest =>
      rw [skipComment_offset hbs hafter] at h
      cases h
      have hshort := afterComment?_length hafter
      have hle := hbs.length_le
      rw [offset, offset]
      omega

/-- Passes separators and comments from an offset on. -/
def skipGap (text : Bytes) (i : Nat) : Except Fault Nat :=
  match _h : skipComment text (skipWhile isSeparator text i) with
  | .ok (true, j) => skipGap text j
  | .ok (false, j) => .ok j
  | .error fault => .error fault
termination_by text.length - i
decreasing_by
  have hlt := skipComment_lt ‹_›
  have hle := le_skipWhile isSeparator text i
  omega

/-- The loop unfolded once. -/
theorem skipGap_eq (text : Bytes) (i : Nat) :
    skipGap text i = match skipComment text (skipWhile isSeparator text i) with
      | .ok (true, j) => skipGap text j
      | .ok (false, j) => .ok j
      | .error fault => .error fault := by
  rw [skipGap]
  split <;> next h => rw [h]

/-- Gaps are skipped without a fault, up to the first byte of a token. -/
theorem skipGap_offset (h : bs <:+ text) :
    skipGap text (offset text bs) = .ok (offset text (SqlTables.skipGap bs)) := by
  fun_induction SqlTables.skipGap bs with
  | case1 bs rest hafter ih =>
      have hdrop : bs.dropWhile isSeparator <:+ text := (List.dropWhile_suffix _).trans h
      rw [skipGap_eq, skipWhile_offset isSeparator h, skipComment_offset hdrop hafter]
      exact ih ((afterComment?_suffix hafter).trans hdrop)
  | case2 bs hafter =>
      have hdrop : bs.dropWhile isSeparator <:+ text := (List.dropWhile_suffix _).trans h
      rw [skipGap_eq, skipWhile_offset isSeparator h, skipComment_offset_of_none hdrop hafter]

/-- Behind the end there is nothing to pass. -/
theorem skipGap_of_length_le (h : text.length ≤ i) : skipGap text i = .ok i := by
  rw [skipGap_eq, skipWhile_of_length_le isSeparator h,
    skipComment_of_not_starts (startsComment_of_length_le h)]

/-! ## Quoted texts -/

/-- The next mark from an offset on, and whether it takes the byte behind it with it. -/
def nextMark (q : Quote) (text : Bytes) (i : Nat) : Except Fault (Option (Nat × Bool)) := do
  let tail ← slice text (min i text.length) text.length
  match tail.findIdx? q.isMark with
  | none => return none
  | some n =>
      let b ← byte text (i + n)
      return some (i + n, b = '\\'.toUInt8 ∨ text[i + n + 1]? = some q.byte)

theorem nextMark_none (h : bs <:+ text) (hfind : bs.findIdx? q.isMark = none) :
    nextMark q text (offset text bs) = .ok none := by
  rw [nextMark, Nat.min_eq_left (offset_le text bs), slice_rest h, ok_bind, hfind]
  rfl

/-- The next byte that matters in a quoted text, and whether it makes a pair with the one behind it. -/
theorem nextMark_some (h : bs <:+ text) (hfind : bs.findIdx? q.isMark = some n)
    (hdrop : bs.drop n = b :: rest) :
    nextMark q text (offset text bs) =
      .ok (some (offset text (b :: rest), b = '\\'.toUInt8 ∨ rest.head? = some q.byte)) := by
  obtain ⟨hlt, -⟩ := List.findIdx?_eq_some_iff_getElem.mp hfind
  have hmark : b :: rest <:+ text := hdrop ▸ (List.drop_suffix n bs).trans h
  have hoffset : offset text bs + n = offset text (b :: rest) := by
    rw [← hdrop, offset_drop h (Nat.le_of_lt hlt)]
  have hbyte : byte text (offset text (b :: rest)) = .ok b := byte_eq (getElem?_offset_cons hmark)
  have hnext : text[offset text (b :: rest) + 1]? = rest.head? := by
    rw [getElem?_offset hmark, List.head?_eq_getElem?]
    rfl
  rw [nextMark, Nat.min_eq_left (offset_le text bs), slice_rest h, ok_bind, hfind]
  simp only [hoffset, hbyte, hnext, ok_bind]
  rfl

/-- A trailing backslash leaves the search behind the end of the text, where it finds nothing. -/
theorem nextMark_of_length_le (q : Quote) (h : text.length ≤ i) : nextMark q text i = .ok none := by
  have hslice : slice text text.length text.length = .ok [] := slice_rest List.nil_suffix
  rw [nextMark, Nat.min_eq_right h, hslice]
  rfl

/-- This byte stands inside of the text, so it may be looked at. -/
theorem nextMark_lt {j : Nat} {pair : Bool} (h : nextMark q text i = .ok (some (j, pair))) :
    i ≤ j ∧ j < text.length := by
  obtain ⟨tail, -, h⟩ := bind_eq_ok.mp h
  cases hfind : tail.findIdx? q.isMark with
  | none =>
      rw [hfind] at h
      cases h
  | some n =>
      rw [hfind] at h
      obtain ⟨b, hbyte, h⟩ := bind_eq_ok.mp h
      have hlt := lt_length_of_byte hbyte
      cases h
      exact ⟨Nat.le_add_right i n, hlt⟩

/-- The offset of the delimiter that closes the quoted text, looked for from an offset on. -/
def findClosing (q : Quote) (text : Bytes) (i : Nat) : Except Fault (Option Nat) :=
  match _h : nextMark q text i with
  | .error fault => .error fault
  | .ok none => .ok none
  | .ok (some (j, pair)) => if pair then findClosing q text (j + 2) else .ok (some j)
termination_by text.length - i
decreasing_by
  obtain ⟨hle, hlt⟩ := nextMark_lt ‹_›
  omega

/-- The search unfolded once: a pair is passed, and any other mark closes. -/
theorem findClosing_eq (q : Quote) (text : Bytes) (i : Nat) :
    findClosing q text i = match nextMark q text i with
      | .error fault => .error fault
      | .ok none => .ok none
      | .ok (some (j, pair)) => if pair then findClosing q text (j + 2) else .ok (some j) := by
  rw [findClosing]
  split <;> next h => rw [h]

/-- The same at an end of the text. -/
theorem findClosing_mark (h : bs <:+ text) (hfind : bs.findIdx? q.isMark = some n)
    (hdrop : bs.drop n = b :: rest) :
    findClosing q text (offset text bs) =
      if b = '\\'.toUInt8 ∨ rest.head? = some q.byte then
        findClosing q text (offset text (b :: rest) + 2)
      else .ok (some (offset text (b :: rest))) := by
  rw [findClosing_eq, nextMark_some h hfind hdrop]
  simp only [decide_eq_true_eq]

/-- The search for the closing quote goes without a fault and ends where `Quote.closing?` does. -/
theorem findClosing_offset (h : bs <:+ text) :
    findClosing q text (offset text bs) = .ok ((q.closing? bs).map (offset text bs + ·)) := by
  -- Along the marks: a pair of bytes is passed, or the mark itself closes.
  fun_induction Quote.closing? q bs with
  | case1 bs hfind => rw [findClosing_eq, nextMark_none h hfind, Option.map_none]
  | case2 bs n hfind hdrop =>
      obtain ⟨hlt, -⟩ := List.findIdx?_eq_some_iff_getElem.mp hfind
      rw [List.drop_eq_nil_iff] at hdrop
      omega
  | case3 bs n hfind b rest hdrop hpair ih =>
      obtain ⟨hlt, -⟩ := List.findIdx?_eq_some_iff_getElem.mp hfind
      have hmark : b :: rest <:+ text := hdrop ▸ (List.drop_suffix n bs).trans h
      have hoffset : offset text (b :: rest) = offset text bs + n := by
        rw [← hdrop, offset_drop h (Nat.le_of_lt hlt)]
      rw [findClosing_mark h hfind hdrop, if_pos hpair]
      cases rest with
      | nil =>
          -- The backslash is the last byte of the text, and nothing is left to escape.
          have hend : offset text [b] + 1 = text.length := offset_cons hmark
          rw [findClosing_eq, nextMark_of_length_le q (by omega), List.drop_nil, closing?_nil]
          rfl
      | cons c more =>
          have hmore : more <:+ text := (List.suffix_append [b, c] more).trans hmark
          have htwo : offset text (b :: c :: more) + 2 = offset text more :=
            offset_append [b, c] hmark
          rw [List.drop_one, List.tail_cons] at ih ⊢
          rw [htwo, ih hmore, Option.map_map]
          congr 2
          funext k
          simp only [Function.comp_apply]
          omega
  | case4 bs n hfind b rest hdrop hpair =>
      obtain ⟨hlt, -⟩ := List.findIdx?_eq_some_iff_getElem.mp hfind
      rw [findClosing_mark h hfind hdrop, if_neg hpair, ← hdrop, offset_drop h (Nat.le_of_lt hlt)]
      rfl

/-- Passes the quoted text at an offset and answers its content, which is empty away from a quote. -/
def skipQuoted (text : Bytes) (i : Nat) : Except Fault (Bytes × Nat) :=
  match text[i]?.bind Quote.ofByte? with
  | none => .ok ([], i)
  | some q => do
      match ← findClosing q text (i + 1) with
      | some close => return (← slice text (i + 1) close, close + 1)
      | none => return (← slice text (min (i + 1) text.length) text.length, text.length)

theorem skipQuoted_none (h : text[i]?.bind Quote.ofByte? = none) :
    skipQuoted text i = .ok ([], i) := by rw [skipQuoted, h]

/-- Quoted text is cut at valid offsets, be it closed or not. -/
theorem skipQuoted_offset (h : b :: rest <:+ text) (hq : Quote.ofByte? b = some q) :
    skipQuoted text (offset text (b :: rest)) =
      .ok ((q.split rest).1, offset text (q.split rest).2) := by
  have hquote : text[offset text (b :: rest)]?.bind Quote.ofByte? = some q := by
    rw [getElem?_offset_cons h]
    exact hq
  have hrest : rest <:+ text := (List.suffix_cons b rest).trans h
  unfold skipQuoted Quote.split
  rw [hquote, offset_cons h]
  simp only [findClosing_offset hrest, ok_bind]
  cases hclose : q.closing? rest with
  | none =>
      rw [Option.map_none, Nat.min_eq_left (offset_le text rest)]
      simp only [slice_rest hrest, ok_bind]
      rfl
  | some n =>
      have hlt : n < rest.length := Quote.lt_length_of_closing? hclose
      rw [Option.map_some, offset_drop hrest hlt]
      simp only [slice_take hrest (Nat.le_of_lt hlt), ok_bind]
      rfl

/-! ## Tokens -/

/-- The next token from an offset on, and the offset behind it. -/
def next (text : Bytes) (i : Nat) : Except Fault (Option Token × Nat) := do
  let i ← skipGap text i
  match text[i]? with
  | none => return (none, i)
  | some b =>
      match Quote.ofByte? b with
      | some q =>
          let (content, j) ← skipQuoted text i
          return (some (.quoted q content), j)
      | none =>
          if isWordByte b then
            let j := skipWhile isWordByte text i
            return (some (.word (← slice text i j)), j)
          else return (some (.punct b), i + 1)

/-- A token is read without a fault, and the cursor stops behind it. Where none is left it stops at the
    end. -/
theorem next_offset (h : bs <:+ text) :
    next text (offset text bs) = .ok (match bs.nextToken? with
      | some (t, rest) => (some t, offset text rest)
      | none => (none, text.length)) := by
  have hgap : SqlTables.skipGap bs <:+ text := (skipGap_suffix bs).trans h
  rw [next, skipGap_offset h, ok_bind]
  unfold Bytes.nextToken?
  cases hs : SqlTables.skipGap bs with
  | nil =>
      have hnone : text[offset text []]? = none := List.getElem?_eq_none (Nat.le_refl text.length)
      rw [hnone]
      rfl
  | cons b rest =>
      rw [hs] at hgap
      simp only [getElem?_offset_cons hgap]
      cases hq : Quote.ofByte? b with
      | some q =>
          simp only [skipQuoted_offset hgap hq, ok_bind]
          rfl
      | none =>
          by_cases hword : isWordByte b = true
          · -- The word is cut out between two offsets of the text, both of which lie in it.
            have hsplit : b :: rest.takeWhile isWordByte ++ rest.dropWhile isWordByte = b :: rest := by
              rw [List.cons_append, List.takeWhile_append_dropWhile]
            have hslice := slice_append (hsplit.symm ▸ hgap)
            rw [hsplit] at hslice
            have hwhile : skipWhile isWordByte text (offset text (b :: rest)) =
                offset text (rest.dropWhile isWordByte) := by
              rw [skipWhile_offset isWordByte hgap, List.dropWhile_cons_of_pos hword]
            simp only [if_pos hword, hwhile, hslice, ok_bind]
            rfl
          · simp only [if_neg hword, offset_cons hgap]
            rfl

/-! ## Parentheses -/

/-- Skipping gaps does not go back. -/
theorem le_skipGap {j : Nat} (h : skipGap text i = .ok j) : i ≤ j := by
  rcases Nat.le_total text.length i with hend | hin
  · rw [skipGap_of_length_le hend] at h
    cases h
    exact Nat.le_refl i
  · obtain ⟨bs, hbs, rfl⟩ := exists_suffix hin
    rw [skipGap_offset hbs] at h
    cases h
    exact Nat.sub_le_sub_left (length_skipGap_le bs) text.length

/-- Skipping quoted text goes past the opening quote at least, which makes the search for a `)` end. -/
theorem lt_skipQuoted {j : Nat} (hb : text[i]? = some b) (hq : Quote.ofByte? b = some q)
    (h : skipQuoted text i = .ok (part, j)) : i < j := by
  obtain ⟨hlt, -⟩ := List.getElem?_eq_some_iff.mp hb
  obtain ⟨bs, hbs, rfl⟩ := exists_suffix (Nat.le_of_lt hlt)
  have hhead : bs[0]? = some b := getElem?_offset hbs 0 ▸ hb
  rw [← List.head?_eq_getElem?, List.head?_eq_some_iff] at hhead
  obtain ⟨rest, rfl⟩ := hhead
  rw [skipQuoted_offset hbs hq] at h
  cases h
  rw [← Nat.succ_le_iff, Nat.succ_eq_add_one, offset_cons hbs]
  exact Nat.sub_le_sub_left (Quote.split_rest_suffix q rest).length_le text.length

/-- What the search for a closing parenthesis comes to in one turn. -/
inductive Turn where
  /-- It ends at this offset. -/
  | stop (close : Nat)
  /-- It goes on from this offset, with so many parentheses to be closed. -/
  | go (depth i : Nat)

/-- One turn of the search: a gap and then a parenthesis, a quoted text or any other byte. -/
def turn (text : Bytes) (depth i : Nat) : Except Fault Turn := do
  let i ← skipGap text i
  match text[i]? with
  | none => return .stop text.length
  | some b =>
      if b = '('.toUInt8 then return .go (depth + 1) (i + 1)
      else if b = ')'.toUInt8 then
        match ← minus depth 1 with
        | 0 => return .stop i
        | outer + 1 => return .go (outer + 1) (i + 1)
      else
        match Quote.ofByte? b with
        | some _ =>
            let (_, i) ← skipQuoted text i
            return .go depth i
        | none => return .go depth (i + 1)

/-- One turn of this search: it stops at the end or at the `)` that closes, and otherwise goes on behind what
    it met. -/
theorem turn_offset (h : bs <:+ text) (depth : Nat) :
    turn text (depth + 1) (offset text bs) = .ok (match SqlTables.skipGap bs with
      | [] => .stop text.length
      | b :: rest =>
          if b = '('.toUInt8 then .go (depth + 2) (offset text rest)
          else if b = ')'.toUInt8 then
            match depth with
            | 0 => .stop (offset text (b :: rest))
            | outer + 1 => .go (outer + 1) (offset text rest)
          else
            match Quote.ofByte? b with
            | some q => .go (depth + 1) (offset text (q.split rest).2)
            | none => .go (depth + 1) (offset text rest)) := by
  -- Behind the gap the three bytes that count, a quote and any other byte are told
  -- apart as in the search itself.
  have hgap : SqlTables.skipGap bs <:+ text := (skipGap_suffix bs).trans h
  rw [turn, skipGap_offset h, ok_bind]
  cases hs : SqlTables.skipGap bs with
  | nil =>
      have hnone : text[offset text []]? = none := List.getElem?_eq_none (Nat.le_refl text.length)
      rw [hnone]
      rfl
  | cons b rest =>
      rw [hs] at hgap
      simp only [getElem?_offset_cons hgap, offset_cons hgap]
      by_cases hopen : b = '('.toUInt8
      · rw [if_pos hopen, if_pos hopen]
        rfl
      · rw [if_neg hopen, if_neg hopen]
        by_cases hclose : b = ')'.toUInt8
        · rw [if_pos hclose, if_pos hclose]
          cases depth with
          | zero => rfl
          | succ outer => rfl
        · rw [if_neg hclose, if_neg hclose]
          cases hq : Quote.ofByte? b with
          | none => rfl
          | some q =>
              simp only [skipQuoted_offset hgap hq, ok_bind]
              rfl

/-- A search that goes on has come closer to the end of the text. -/
theorem turn_lt {depth depth' j : Nat} (h : turn text depth i = .ok (.go depth' j)) :
    text.length - j < text.length - i := by
  rw [turn, bind_eq_ok] at h
  obtain ⟨k, hgap, h⟩ := h
  -- The gap goes forward or nowhere, and the byte behind it is always passed.
  have hle := le_skipGap hgap
  cases hb : text[k]? with
  | none =>
      rw [hb] at h
      cases h
  | some b =>
      obtain ⟨hlt, -⟩ := List.getElem?_eq_some_iff.mp hb
      simp only [hb] at h
      split at h
      · cases h
        omega
      · split at h
        · obtain ⟨outer, -, h⟩ := bind_eq_ok.mp h
          cases outer with
          | zero => cases h
          | succ outer =>
              cases h
              omega
        · split at h
          · next q hq =>
              obtain ⟨⟨part, m⟩, hquoted, h⟩ := bind_eq_ok.mp h
              have hm := lt_skipQuoted hb hq hquoted
              cases h
              omega
          · cases h
            omega

/-- The offset of the `)` that closes the last of `depth` parentheses, looked for from an offset on. -/
def searchClosing (text : Bytes) (depth i : Nat) : Except Fault Nat :=
  match _h : turn text depth i with
  | .error fault => .error fault
  | .ok (.stop close) => .ok close
  | .ok (.go depth i) => searchClosing text depth i
termination_by text.length - i
decreasing_by exact turn_lt ‹_›

/-- The search unfolded once. -/
theorem searchClosing_eq (text : Bytes) (depth i : Nat) :
    searchClosing text depth i = match turn text depth i with
      | .error fault => .error fault
      | .ok (.stop close) => .ok close
      | .ok (.go depth i) => searchClosing text depth i := by
  rw [searchClosing]
  split <;> next h => rw [h]

/-- The search goes without a fault and ends where `fromClosing` does, the depth being one more than the
    parentheses that are open inside. -/
theorem searchClosing_offset (h : bs <:+ text) (depth : Nat) :
    searchClosing text (depth + 1) (offset text bs) = .ok (offset text (fromClosing depth bs)) := by
  have step {bs rest : Bytes} {b : UInt8} (h : bs <:+ text) (hs : SqlTables.skipGap bs = b :: rest) :
      rest <:+ text :=
    (List.suffix_cons b rest).trans (hs ▸ (skipGap_suffix bs).trans h)
  -- One turn in each case, and the rest of the search from the offset where the turn leaves off.
  fun_induction fromClosing depth bs with
  | case1 depth bs hs =>
      rw [searchClosing_eq, turn_offset h, hs]
      rfl
  | case2 depth bs rest hs ih =>
      rw [searchClosing_eq, turn_offset h, hs]
      simp only [if_pos, ih (step h hs)]
  | case3 bs rest hs ho =>
      rw [searchClosing_eq, turn_offset h, hs]
      simp only [if_neg ho, if_pos]
  | case4 bs rest outer hs ho ih =>
      rw [searchClosing_eq, turn_offset h, hs]
      simp only [if_neg ho, if_pos, ih (step h hs)]
  | case5 depth bs b rest hs ho hc q hq ih =>
      have hrest : (q.split rest).2 <:+ text := (Quote.split_rest_suffix q rest).trans (step h hs)
      rw [searchClosing_eq, turn_offset h, hs]
      simp only [if_neg ho, if_neg hc, hq, ih hrest]
  | case6 depth bs b rest hs ho hc hq ih =>
      rw [searchClosing_eq, turn_offset h, hs]
      simp only [if_neg ho, if_neg hc, hq, ih (step h hs)]

/-- The offset of the `)` that closes the parenthesis at an offset. -/
def closing (text : Bytes) (opening : Nat) : Except Fault Nat := searchClosing text 1 (opening + 1)

/-- From any offset, also one behind the end, the search goes without a fault. -/
theorem closing_eq (c : Cursor) (opening : Nat) :
    closing c.text opening = .ok (c.closing opening) := by
  unfold closing Cursor.closing
  rcases Nat.le_total c.text.length (opening + 1) with hend | hin
  · -- Behind the end there is nothing to search.
    have hturn : turn c.text 1 (opening + 1) = .ok (.stop c.text.length) := by
      rw [turn, skipGap_of_length_le hend, ok_bind, List.getElem?_eq_none hend]
      rfl
    have hnil : fromClosing 0 [] = [] := List.suffix_nil.mp (fromClosing_suffix 0 [])
    rw [searchClosing_eq, hturn, List.drop_eq_nil_of_le hend, hnil]
    rfl
  · have hoffset : offset c.text (c.text.drop (opening + 1)) = opening + 1 := by
      rw [offset_drop List.suffix_rfl hin, offset, Nat.sub_self, Nat.zero_add]
    rw [← hoffset, searchClosing_offset (List.drop_suffix _ _) 0, hoffset]
    rfl

/-- The bytes inside the parenthesis in front of an offset, and the offset behind it. -/
def enclosed (text : Bytes) (i : Nat) : Except Fault (Bytes × Nat) := do
  let close ← closing text (i - 1)
  return (← slice text (min i close) close, min (close + 1) text.length)

/-- What stands in parentheses is cut out at valid offsets. -/
theorem enclosed_eq (c : Cursor) :
    enclosed c.text c.position = .ok (c.enclosed.1, c.enclosed.2.position) := by
  have hle : c.closing (c.position - 1) ≤ c.text.length := Nat.sub_le _ _
  have hslice : slice c.text (min c.position (c.closing (c.position - 1)))
      (c.closing (c.position - 1)) = .ok c.enclosed.1 := if_pos ⟨Nat.min_le_right _ _, hle⟩
  rw [enclosed, closing_eq, ok_bind, hslice, ok_bind]
  rfl

end Access

end SqlTables
