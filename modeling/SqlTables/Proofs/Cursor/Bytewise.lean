import SqlTables.Proofs.Cursor
import SqlTables.Proofs.Token.Content
import SqlTables.Proofs.Token.Gaps

/-!
# `SqlTables.Proofs.Cursor.Bytewise` — skipping reads every byte

The end of a quoted text and the end of a comment are looked for from one mark to the next. A reader that
takes one byte after another, and keeps in mind only what the last one says about the next, comes to the same
place.

## Contents
- **`Quote.Reading`** and **`Quote.read`**: quoted texts byte by byte.
- **`lineEnd`** and **`blockEnd`**: comments byte by byte.
- **`read_eq_split`**, **`lineEnd_eq`** and **`blockEnd_eq`**: where the readers stop.
- **`Cursor.readQuoted`** and **`Cursor.readComment`**: the readers at a cursor.
- **`skips_eq_reads`**: skipping and reading.
-/

namespace SqlTables

variable {q : Quote} {b : UInt8} {body content rest text : Bytes}

/-! ## Quoted texts -/

namespace Quote

/-- What the byte that was read last says about the next one. -/
inductive Reading where
  /-- Nothing: the next byte is judged by itself. -/
  | plain
  /-- A backslash takes the next byte with it. -/
  | escape
  /-- A delimiter closes the text, unless the next byte doubles it. -/
  | delimiter
  deriving DecidableEq

/-- Reads one byte; none if the delimiter in front of it has closed the text. -/
def Reading.next (q : Quote) (b : UInt8) : Reading → Option Reading
  | plain =>
      if b = q.byte then some delimiter
      else if q.escapes = true ∧ b = '\\'.toUInt8 then some escape
      else some plain
  | escape => some plain
  | delimiter => if b = q.byte then some plain else none

/-- Reads byte by byte, the next byte being the one at offset `i`. Answers where the content ends and where
    the reader stops, which is behind the delimiter or at the end of the text. -/
def read (q : Quote) (reading : Reading) (i : Nat) : Bytes → Nat × Nat
  | [] => (if reading = .delimiter then i - 1 else i, i)
  | b :: rest =>
      match reading.next q b with
      | some reading => read q reading (i + 1) rest
      | none => (i - 1, i)

end Quote

/-- A byte without a meaning of its own is passed. -/
theorem read_plain (h : q.isMark b = false) (i : Nat) (rest : Bytes) :
    q.read .plain i (b :: rest) = q.read .plain (i + 1) rest := by
  have hmark : ¬ (b = q.byte ∨ q.escapes = true ∧ b = '\\'.toUInt8) := by
    rw [← isMark_iff, h]
    exact Bool.false_ne_true
  obtain ⟨hbyte, hslash⟩ := not_or.mp hmark
  simp only [Quote.read, Quote.Reading.next, if_neg hbyte, if_neg hslash]

theorem read_delimiter (q : Quote) (i : Nat) (rest : Bytes) :
    q.read .plain i (q.byte :: rest) = q.read .delimiter (i + 1) rest := by
  simp only [Quote.read, Quote.Reading.next, if_pos]

theorem read_backslash (h : q.escapes = true) (i : Nat) (rest : Bytes) :
    q.read .plain i ('\\'.toUInt8 :: rest) = q.read .escape (i + 1) rest := by
  have hbyte : '\\'.toUInt8 ≠ q.byte := (byte_ne_backslash q).symm
  simp only [Quote.read, Quote.Reading.next, if_neg hbyte, h, and_self, if_true]

/-- The reader passes a content as a whole. -/
theorem read_content (h : q.Content content) (i : Nat) (rest : Bytes) :
    q.read .plain i (content ++ rest) = q.read .plain (i + content.length) rest := by
  -- On the parts of the content: a single byte, or two that are read in a state of their own.
  induction h generalizing i with
  | nil => rfl
  | plain hb _ ih =>
      rw [List.cons_append, read_plain hb, ih, List.length_cons, Nat.add_assoc, Nat.add_comm 1]
  | @doubled content _ ih =>
      have hnext : q.read .delimiter (i + 1) (q.byte :: (content ++ rest)) =
          q.read .plain (i + 2) (content ++ rest) := by
        simp only [Quote.read, Quote.Reading.next, if_pos]
      rw [List.cons_append, List.cons_append, read_delimiter, hnext, ih]
      simp only [List.length_cons]
      congr 1
      omega
  | @escaped b content he _ ih =>
      have hnext : q.read .escape (i + 1) (b :: (content ++ rest)) =
          q.read .plain (i + 2) (content ++ rest) := by
        simp only [Quote.read, Quote.Reading.next]
      rw [List.cons_append, List.cons_append, read_backslash he, hnext, ih]
      simp only [List.length_cons]
      congr 1
      omega

/-- A delimiter that is not doubled closes. -/
theorem read_closing (h : rest.head? ≠ some q.byte) (i : Nat) :
    q.read .plain i (q.byte :: rest) = (i, i + 1) := by
  rw [read_delimiter]
  cases rest with
  | nil => simp [Quote.read]
  | cons b rest =>
      have hb : b ≠ q.byte := by
        rintro rfl
        exact h rfl
      simp [Quote.read, Quote.Reading.next, hb]

/-- Quoted text that is not closed is read to the end. -/
theorem read_unclosed (h : q.Unclosed text) (i : Nat) :
    q.read .plain i text = (i + text.length, i + text.length) := by
  cases h with
  | content hc =>
      have hread := read_content hc i []
      rw [List.append_nil] at hread
      rw [hread]
      simp [Quote.read]
  | backslash he hc =>
      rw [read_content hc, read_backslash he]
      simp [Quote.read, Nat.add_assoc]

/-- Reading byte by byte cuts a text where the search for the closing delimiter does. -/
theorem read_eq_split (q : Quote) (i : Nat) (text : Bytes) :
    q.read .plain i text =
      (i + (q.split text).1.length, i + (text.length - (q.split text).2.length)) := by
  rcases content_or_unclosed q text with ⟨content, rest, rfl, hc, hrest⟩ | hopen
  · rw [read_content hc, read_closing hrest, split_content hc hrest]
    refine Prod.ext rfl ?_
    simp only [List.length_append, List.length_cons]
    omega
  · rw [read_unclosed hopen, split_unclosed hopen]
    rfl

/-! ## Comments -/

/-- Reads on to just behind the first line end, or to the end of the text; the next byte is the one at
    offset `i`. -/
def lineEnd (i : Nat) : Bytes → Nat
  | [] => i
  | b :: rest => if b = '\n'.toUInt8 then i + 1 else lineEnd (i + 1) rest

/-- Reads on to just behind the first `*/`, or to the end of the text; `star` says whether the byte that was
    read last is a star that belongs to the comment. -/
def blockEnd (star : Bool) (i : Nat) : Bytes → Nat
  | [] => i
  | b :: rest =>
      if star = true ∧ b = '/'.toUInt8 then i + 1
      else blockEnd (b == '*'.toUInt8) (i + 1) rest

/-- Up to the new line the bytes of a comment are passed. -/
theorem lineEnd_append (h : '\n'.toUInt8 ∉ body) (i : Nat) (rest : Bytes) :
    lineEnd i (body ++ rest) = lineEnd (i + body.length) rest := by
  induction body generalizing i with
  | nil => rfl
  | cons b body ih =>
      obtain ⟨hb, hbody⟩ := not_or.mp (mt List.mem_cons.mpr h)
      rw [List.cons_append, lineEnd, if_neg (Ne.symm hb), ih hbody, List.length_cons, Nat.add_assoc,
        Nat.add_comm 1]

/-- Byte by byte, a comment of this kind ends where the search for a new line ends. -/
theorem lineEnd_eq (i : Nat) (text : Bytes) :
    lineEnd i text = i + (text.length - (afterLine text).length) := by
  rcases newline_cases text with hno | ⟨body, rest, rfl, hbody⟩
  · have hread := lineEnd_append hno i []
    rw [List.append_nil] at hread
    rw [hread, afterLine_of_notMem hno]
    rfl
  · rw [lineEnd_append hbody, afterLine_append_newline hbody, lineEnd, if_pos rfl]
    simp only [List.length_append, List.length_cons]
    omega

/-- The star that was read last, if it was one. -/
def lastStar (star : Bool) : Bytes := if star then ascii "*" else []

/-- The reader passes a text without the mark, which may also start with the star in front of it. -/
theorem blockEnd_append (star : Bool) (h : ¬ ascii "*/" <:+: lastStar star ++ body) (i : Nat) :
    ∃ star', ∀ rest, blockEnd star i (body ++ rest) = blockEnd star' (i + body.length) rest := by
  induction body generalizing star i with
  | nil => exact ⟨star, fun rest => rfl⟩
  | cons b body ih =>
      have hslash : ¬ (star = true ∧ b = '/'.toUInt8) := by
        rintro ⟨rfl, rfl⟩
        exact h ⟨[], body, rfl⟩
      -- A star that is read last is a byte of the text, so no mark is made up by it.
      have hbody : ¬ ascii "*/" <:+: lastStar (b == '*'.toUInt8) ++ body := by
        intro hmark
        apply h
        apply hmark.trans
        apply List.IsSuffix.isInfix
        refine List.IsSuffix.trans ?_ (List.suffix_append (lastStar star) (b :: body))
        by_cases hb : b = '*'.toUInt8
        · subst hb
          exact List.suffix_rfl
        · have hno : lastStar (b == '*'.toUInt8) = [] := by
            unfold lastStar
            rw [if_neg (by simpa using hb)]
          rw [hno]
          exact List.suffix_cons b body
      obtain ⟨star', hstar⟩ := ih _ hbody (i + 1)
      refine ⟨star', fun rest => ?_⟩
      rw [List.cons_append, blockEnd, if_neg hslash, hstar, List.length_cons, Nat.add_assoc,
        Nat.add_comm 1]

/-- Byte by byte, a comment in block marks ends behind the first closing mark, as the search finds it. -/
theorem blockEnd_eq (i : Nat) (text : Bytes) :
    blockEnd false i text = i + (text.length - (afterBlock text).length) := by
  rcases blockEnd_cases text with hno | ⟨body, rest, rfl, hbody⟩
  · obtain ⟨star, hread⟩ := blockEnd_append false hno i
    have hall := hread []
    rw [List.append_nil] at hall
    rw [hall, afterBlock_of_no_mark hno]
    rfl
  · have hno : ¬ ascii "*/" <:+: body := by
      intro hmark
      exact hbody (hmark.trans (List.prefix_append body _).isInfix)
    obtain ⟨star, hread⟩ := blockEnd_append false hno i
    -- Whatever was read last, the star and the slash end the comment.
    have hmark : blockEnd star (i + body.length) (ascii "*/" ++ rest) = i + body.length + 2 := by
      have hstar : ¬ (star = true ∧ '*'.toUInt8 = '/'.toUInt8) := by
        rintro ⟨-, h⟩
        exact absurd h (by decide)
      show blockEnd star (i + body.length) ('*'.toUInt8 :: '/'.toUInt8 :: rest) = _
      rw [blockEnd, if_neg hstar, blockEnd, if_pos ⟨by decide, rfl⟩]
    rw [hread, hmark, afterBlock_append_mark hbody]
    simp only [List.length_append]
    have htwo : (ascii "*/").length = 2 := rfl
    omega

/-! ## At a cursor -/

namespace Cursor

/-- The content of the quoted text at the cursor and the cursor behind it, read byte by byte. -/
def readQuoted (c : Cursor) : Bytes × Cursor :=
  match c.quote? with
  | some q =>
      let ends := q.read .plain (c.position + 1) (c.text.drop (c.position + 1))
      ((c.text.take ends.1).drop (c.position + 1), { c with position := ends.2 })
  | none => ([], c)

/-- Whether a comment starts at the cursor, and the cursor behind it, read byte by byte. Behind a `/` the
    first two bytes are passed unseen. -/
def readComment (c : Cursor) : Bool × Cursor :=
  if c.atComment = true then
    if c.peekByte? = some '/'.toUInt8 then
      (true, { c with position := blockEnd false (c.position + 2) (c.text.drop (c.position + 2)) })
    else (true, { c with position := lineEnd c.position (c.text.drop c.position) })
  else (false, c)

/-- The end of a text that is left where a part in front of it has been passed. -/
theorem moveTo_eq {c : Cursor} {i : Nat} (h : i ≤ c.text.length) (hrest : rest <:+ c.text.drop i) :
    c.moveTo rest = { c with position := i + ((c.text.drop i).length - rest.length) } := by
  have hle := hrest.length_le
  rw [moveTo, Cursor.mk.injEq]
  refine ⟨rfl, ?_⟩
  rw [List.length_drop] at hle ⊢
  omega

theorem lt_length_of_quote? {c : Cursor} (h : c.quote? = some q) : c.position < c.text.length := by
  obtain ⟨b, hb, -⟩ := Option.bind_eq_some_iff.mp h
  obtain ⟨hlt, -⟩ := List.getElem?_eq_some_iff.mp hb
  exact hlt

/-- Quoted text is skipped and read byte by byte to the same offset and with the same content. -/
theorem skipQuoted_eq_readQuoted (c : Cursor) : c.skipQuoted = c.readQuoted := by
  unfold skipQuoted readQuoted
  cases hq : c.quote? with
  | none => rfl
  | some q =>
      have hlt : c.position + 1 ≤ c.text.length := lt_length_of_quote? hq
      have hcontent := List.prefix_iff_eq_take.mp (split_prefix_text q (c.text.drop (c.position + 1)))
      simp only [rest, List.drop_drop, read_eq_split]
      rw [← moveTo_eq hlt (Quote.split_rest_suffix q _), List.drop_take, Nat.add_sub_cancel_left,
        ← hcontent]

/-- The first byte tells this kind of comment from a block. -/
theorem skipComment_of_line {c : Cursor} (h : startsLineComment c.rest = true) :
    c.skipComment = (true, { c with position := lineEnd c.position c.rest }) ∧
      c.peekByte? ≠ some '/'.toUInt8 := by
  have hafter : afterComment? c.rest = some (afterLine c.rest) := if_pos h
  cases hrest : c.rest with
  | nil =>
      rw [hrest] at h
      exact absurd h (by decide)
  | cons b tail =>
      have hle : c.position ≤ c.text.length := by
        have hlength := congrArg List.length hrest
        rw [rest, List.length_drop, List.length_cons] at hlength
        omega
      constructor
      · unfold skipComment
        rw [hafter, ← hrest, lineEnd_eq]
        exact congrArg (Prod.mk true) (moveTo_eq hle (afterLine_suffix c.rest))
      · rw [peekByte?_eq_head?, hrest, List.head?_cons]
        rw [hrest] at h
        rintro ⟨rfl⟩
        exact ne_slash_of_startsLineComment h rfl

/-- A block starts with a slash, behind which two bytes are passed unseen. -/
theorem skipComment_of_block {c : Cursor} (h : startsBlockComment c.rest = true) :
    c.skipComment =
        (true, { c with position := blockEnd false (c.position + 2) (c.text.drop (c.position + 2)) }) ∧
      c.peekByte? = some '/'.toUInt8 := by
  obtain ⟨tail, hrest⟩ := startsBlockComment_iff.mp h
  have hafter : afterComment? c.rest = some (afterBlock tail) := by
    rw [hrest]
    exact afterComment?_blockMark tail
  have htail : c.text.drop (c.position + 2) = tail := by
    rw [← List.drop_drop]
    exact congrArg (List.drop 2) hrest
  have hle : c.position + 2 ≤ c.text.length := by
    have hlength := congrArg List.length hrest
    simp only [rest, List.length_drop, List.length_cons] at hlength
    omega
  constructor
  · unfold skipComment
    rw [hafter, blockEnd_eq, ← htail]
    exact congrArg (Prod.mk true) (moveTo_eq hle (afterBlock_suffix _))
  · rw [peekByte?_eq_head?, hrest]
    rfl

/-- Comments of both kinds are skipped as they are read byte by byte. -/
theorem skipComment_eq_readComment (c : Cursor) : c.skipComment = c.readComment := by
  unfold readComment
  by_cases hstart : c.atComment = true
  · rw [if_pos hstart]
    rcases (Bool.or_eq_true _ _).mp hstart with hline | hblock
    · obtain ⟨hskip, hpeek⟩ := skipComment_of_line hline
      rw [if_neg hpeek]
      exact hskip
    · obtain ⟨hskip, hpeek⟩ := skipComment_of_block hblock
      rw [if_pos hpeek]
      exact hskip
  · have hnone : afterComment? c.rest = none :=
      afterComment?_eq_none_iff.mpr (Bool.eq_false_iff.mpr hstart)
    unfold skipComment
    rw [if_neg hstart, hnone]

/-- **Skipping reads every byte.** At every cursor the search for the end of a quoted text answers the content
    and the place that reading byte by byte comes to, and so does the search for the end of a comment. -/
theorem skips_eq_reads (c : Cursor) :
    c.skipQuoted = c.readQuoted ∧ c.skipComment = c.readComment :=
  ⟨skipQuoted_eq_readQuoted c, skipComment_eq_readComment c⟩

end Cursor

end SqlTables
