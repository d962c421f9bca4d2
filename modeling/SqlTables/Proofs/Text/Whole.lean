import SqlTables.Name
import SqlTables.Proofs.Cursor.Calls
import SqlTables.Proofs.Cursor.Enclosed
import SqlTables.Proofs.Text.Utf8

/-!
# `SqlTables.Proofs.Text.Whole` — no character is cut

Bytes are read one by one, a byte outside of ASCII counts as part of a word whatever it belongs to, and inside
of quotes a backslash takes with it a single byte. Yet wherever reading stops there is a byte of ASCII on one
side, or an end of the text, so no character is ever cut.

## Contents
- One lemma `valid_…` for each reader: what it leaves is made of characters.
- **`collapse_characters`**: a name is read out of its quotes character by character.
- **`CharBoundary`**, **`Token.Whole`** and **`Event.Whole`**: what holds of every call to a cursor.
- **`run_whole`**: calls one after another.
-/

namespace SqlTables

open Utf8

variable {bs gap comment lexeme rest text : Bytes} {x : UInt8} {q : Quote} {t : Token} {i : Nat}

/-! ## Bytes of ASCII -/

theorem ascii_byte (q : Quote) : q.byte < 0x80 := by cases q <;> decide

theorem ascii_of_isSeparator (h : isSeparator x = true) : x < 0x80 := by
  grind [isSeparator]

/-- A byte that belongs to no word is one of ASCII: every other byte counts as part of a word. -/
theorem ascii_of_not_isWordByte (h : isWordByte x = false) : x < 0x80 := by
  grind [isWordByte]

/-! ## Gaps -/

/-- A comment ends in a byte of ASCII or with the text, so what follows it is made of characters. -/
theorem valid_behind_comment (h : Comment comment rest) (hv : Valid (comment ++ rest)) : Valid rest := by
  cases h with
  | @line mark body rest _ _ =>
      have hsplit : mark ++ (body ++ ascii "\n") ++ rest = mark ++ body ++ '\n'.toUInt8 :: rest := by
        simp [ascii]
      rw [hsplit] at hv
      exact (valid_of_ascii (by decide) hv).2
  | openLine => exact valid_nil
  | @block body rest _ =>
      have hsplit : ascii "/*" ++ (body ++ ascii "*/") ++ rest =
          ascii "/*" ++ (body ++ ascii "*") ++ '/'.toUInt8 :: rest := by
        simp [ascii]
      rw [hsplit] at hv
      exact (valid_of_ascii (by decide) hv).2
  | openBlock => exact valid_nil

/-- What follows a gap is made of characters. The induction is on the row of its parts. -/
theorem valid_behind_gap (h : Gap gap rest) (hv : Valid (gap ++ rest)) : Valid rest := by
  induction h with
  | nil => exact hv
  | separator hb _ ih => exact ih (valid_of_ascii (a := []) (ascii_of_isSeparator hb) hv).2
  | comment hcomment _ ih =>
      rw [List.append_assoc] at hv
      exact ih (valid_behind_comment hcomment hv)

theorem valid_afterComment? (h : afterComment? bs = some rest) (hv : Valid bs) : Valid rest := by
  obtain ⟨comment, rfl, hcomment⟩ := afterComment?_eq_some_iff.mp h
  exact valid_behind_comment hcomment hv

theorem valid_skipGap (hv : Valid bs) : Valid (skipGap bs) := by
  obtain ⟨gap, hsplit, hgap, -⟩ := skipGap_eq_iff.mp (rfl : skipGap bs = skipGap bs)
  rw [hsplit] at hv
  exact valid_behind_gap hgap hv

/-! ## Tokens -/

/-- A quoted text ends with its delimiter or with the text. -/
theorem valid_split (hv : Valid bs) : Valid (q.split bs).1 ∧ Valid (q.split bs).2 := by
  rcases content_or_unclosed q bs with ⟨content, rest, rfl, hc, hrest⟩ | hopen
  · rw [split_content hc hrest]
    exact valid_of_ascii (ascii_byte q) hv
  · rw [split_unclosed hopen]
    exact ⟨hv, valid_nil⟩

/-- A lexeme, what its token holds and what follows it are made of characters. -/
theorem valid_lexeme (h : Lexeme t lexeme rest) (hv : Valid (lexeme ++ rest)) :
    Valid lexeme ∧ Valid t.held ∧ Valid rest := by
  cases h with
  | word _ _ hrest =>
      -- Only a byte of ASCII ends a word.
      have hcut : ∀ b, rest.head? = some b → isTail b = false := by
        intro b hb
        exact not_isTail_of_ascii (ascii_of_not_isWordByte (hrest b hb))
      obtain ⟨hword, hback⟩ := valid_of_cut hv hcut
      exact ⟨hword, hword, hback⟩
  | @quoted q content rest _ _ =>
      have hsplit : q.byte :: (content ++ [q.byte]) ++ rest =
          q.byte :: content ++ q.byte :: rest := by
        simp
      rw [hsplit] at hv
      obtain ⟨hfront, hback⟩ := valid_of_ascii (ascii_byte q) hv
      have hclose := valid_append hfront (valid_ascii (ascii_byte q))
      exact ⟨hclose, (valid_of_ascii (a := []) (ascii_byte q) hfront).2, hback⟩
  | @openQuoted q content _ =>
      rw [List.append_nil] at hv
      exact ⟨hv, (valid_of_ascii (a := []) (ascii_byte q) hv).2, valid_nil⟩
  | @punct b rest _ hb _ _ =>
      have hone := valid_ascii (ascii_of_not_isWordByte hb)
      exact ⟨hone, hone, (valid_of_ascii (a := []) (ascii_of_not_isWordByte hb) hv).2⟩

/-! ## Spans -/

/-- A span ends in front of its parenthesis or with the text. -/
theorem head_fromClosing (bs : Bytes) :
    ∀ x, (fromClosing 0 bs).head? = some x → isTail x = false := by
  intro x hx
  rcases fromClosing_cases 0 bs with ⟨hnil, -⟩ | ⟨rest, hclose, -⟩
  · rw [hnil] at hx
    cases hx
  · rw [hclose] at hx
    obtain rfl := Option.some.inj hx
    decide

/-- A text can be cut in front of the parenthesis that closes. -/
theorem valid_fromClosing (hv : Valid text) (hs : bs <:+ text) : Valid (fromClosing 0 bs) := by
  obtain ⟨front, hfront⟩ := (fromClosing_suffix 0 bs).trans hs
  rw [← hfront] at hv
  exact (valid_of_cut hv (head_fromClosing bs)).2

/-! ## Names -/

/-- Each two marks in a row, read from the left, as a single one. -/
def collapsePairs {α : Type} [DecidableEq α] (mark : α) : List α → List α
  | [] => []
  | [a] => [a]
  | a :: b :: rest =>
      if a = mark ∧ b = mark then a :: collapsePairs mark rest else a :: collapsePairs mark (b :: rest)

/-- A delimiter as a character. -/
def Quote.char : Quote → Char
  | single => '\''
  | double => '"'
  | backtick => '`'

section Pairs

variable {α : Type} [DecidableEq α] {mark a : α} {l : List α}

theorem collapsePairs_cons (h : ¬ (a = mark ∧ l.head? = some mark)) :
    collapsePairs mark (a :: l) = a :: collapsePairs mark l := by
  cases l with
  | nil => rfl
  | cons b l =>
      rw [List.head?_cons, Option.some.injEq] at h
      rw [collapsePairs, if_neg h]

theorem collapsePairs_pair (mark : α) (l : List α) :
    collapsePairs mark (mark :: mark :: l) = mark :: collapsePairs mark l := by
  rw [collapsePairs, if_pos ⟨rfl, rfl⟩]

/-- What is no mark stays as it is. -/
theorem collapsePairs_append {front : List α} (h : mark ∉ front) (l : List α) :
    collapsePairs mark (front ++ l) = front ++ collapsePairs mark l := by
  induction front with
  | nil => rfl
  | cons a front ih =>
      obtain ⟨ha, hfront⟩ := not_or.mp (mt List.mem_cons.mpr h)
      rw [List.cons_append, collapsePairs_cons (fun hpair => ha hpair.1.symm), ih hfront]
      rfl

/-- Only marks are left out. -/
theorem count_collapsePairs (h : a ≠ mark) (l : List α) : (collapsePairs mark l).count a = l.count a := by
  fun_induction collapsePairs mark l with
  | case1 => rfl
  | case2 b => rfl
  | case3 b c rest hpair ih =>
      obtain ⟨rfl, rfl⟩ := hpair
      rw [List.count_cons_of_ne h.symm, List.count_cons_of_ne h.symm, List.count_cons_of_ne h.symm, ih]
  | case4 b c rest _ ih => rw [List.count_cons, List.count_cons (b := b), ih]

end Pairs

/-- Doubled delimiters are collapsed as pairs of a mark. -/
theorem collapse_eq (q : Quote) (bs : Bytes) : q.collapse bs = collapsePairs q.byte bs := by
  fun_induction collapsePairs q.byte bs with
  | case1 => rfl
  | case2 b => rfl
  | case3 b c rest hpair ih => rw [Quote.collapse, if_pos hpair, ih]
  | case4 b c rest hpair ih => rw [Quote.collapse, if_neg hpair, ih]

theorem encode_char (q : Quote) : String.utf8EncodeChar q.char = [q.byte] := by cases q <;> rfl

/-- A byte of a delimiter is a delimiter. -/
theorem notMem_encodeChar {c : Char} (h : c ≠ q.char) : q.byte ∉ String.utf8EncodeChar c := by
  intro hmem
  have hshape := shape_encodeChar c
  generalize hbytes : String.utf8EncodeChar c = bytes at hshape hmem
  cases hshape with
  | ascii =>
      rw [List.mem_singleton] at hmem
      have hsame : encode [c] = encode [q.char] := by
        rw [Utf8.encode_cons, Utf8.encode_cons, hbytes, encode_char, hmem]
      have hread := congrArg decodeLossy hsame
      rw [decodeLossy_encode, decodeLossy_encode] at hread
      exact h (List.cons.inj hread).1
  | wide hx _ htails =>
      have hascii := ascii_byte q
      rcases List.mem_cons.mp hmem with rfl | hmem
      · exact absurd hascii (UInt8.not_lt.mpr hx)
      · have htail := htails _ hmem
        rw [not_isTail_of_ascii hascii] at htail
        cases htail

/-- A delimiter at the front is the first character. -/
theorem head_encode {chars : List Char} (h : (encode chars).head? = some q.byte) :
    chars.head? = some q.char := by
  cases chars with
  | nil => cases h
  | cons c chars =>
      by_cases hc : c = q.char
      · rw [hc]
        rfl
      · refine absurd ?_ (notMem_encodeChar hc)
        rw [Utf8.encode_cons] at h
        cases hbytes : String.utf8EncodeChar c with
        | nil => exact absurd hbytes String.utf8EncodeChar_ne_nil
        | cons y bytes =>
            rw [hbytes] at h
            rw [← Option.some.inj h]
            exact List.mem_cons_self

/-- Doubled delimiters are read as single ones character by character. -/
theorem collapse_characters (q : Quote) (chars : List Char) :
    q.collapse (encode chars) = encode (collapsePairs q.char chars) := by
  -- Only a pair of delimiters is collapsed, and bytes of other characters are no delimiters.
  have hcons {c : Char} {chars : List Char} (h : ¬ (c = q.char ∧ chars.head? = some q.char)) :
      collapsePairs q.byte (encode (c :: chars)) =
        String.utf8EncodeChar c ++ collapsePairs q.byte (encode chars) := by
    rw [Utf8.encode_cons]
    by_cases hc : c = q.char
    · subst hc
      rw [encode_char, List.singleton_append, List.singleton_append]
      exact collapsePairs_cons (fun hpair => h ⟨rfl, head_encode hpair.2⟩)
    · exact collapsePairs_append (notMem_encodeChar hc) _
  rw [collapse_eq]
  fun_induction collapsePairs q.char chars with
  | case1 => rfl
  | case2 c => exact hcons (fun h => nomatch h.2)
  | case3 c d rest hpair ih =>
      obtain ⟨rfl, rfl⟩ := hpair
      rw [Utf8.encode_cons, Utf8.encode_cons, Utf8.encode_cons, encode_char, List.singleton_append,
        List.singleton_append, collapsePairs_pair, ih]
      rfl
  | case4 c d rest hpair ih =>
      have hhead : ¬ (c = q.char ∧ (d :: rest).head? = some q.char) :=
        fun h => hpair ⟨h.1, Option.some.inj h.2⟩
      rw [hcons hhead, ih, Utf8.encode_cons]

/-- The characters that a token spells, of those it holds. -/
def Token.copied : Token → List Char → List Char
  | word _, chars => chars
  | quoted q _, chars => collapsePairs q.char chars
  | punct _, _ => []

/-- The spelling of a token is made of the characters that it copies. -/
theorem spelling_eq {chars : List Char} (h : t.held = encode chars) :
    t.spelling = encode (t.copied chars) := by
  cases t with
  | word word => exact h
  | quoted q content => exact (congrArg q.collapse h).trans (collapse_characters q chars)
  | punct b => rfl

theorem valid_spelling (h : Valid t.held) : Valid t.spelling := by
  obtain ⟨chars, hchars⟩ := h
  exact ⟨t.copied chars, spelling_eq hchars⟩

/-! ## Calls to a cursor -/

/-- An offset between two characters of a text, or at one of its ends. -/
structure CharBoundary (text : Bytes) (i : Nat) : Prop where
  inside : i ≤ text.length
  front : Valid (text.take i)
  back : Valid (text.drop i)

/-- A token that is written in a text between two offsets, with a boundary at both of them. -/
structure Token.Whole (text : Bytes) (t : Token) (first last : Nat) : Prop where
  begins : CharBoundary text first
  ends : CharBoundary text last
  written : ∃ lexeme, text.drop first = lexeme ++ text.drop last ∧ Lexeme t lexeme (text.drop last)
  held : Valid t.held
  spelling : Valid t.spelling

/-- What holds of every call to a cursor in a text of characters. -/
structure Event.Whole (text : Bytes) (e : Event) : Prop where
  before : CharBoundary text e.before.position
  after : CharBoundary text e.after.position
  offset : ∀ i, e.answer = .offset i → CharBoundary text i
  bytes : ∀ bs, e.answer = .bytes bs → Valid bs
  token : ∀ t, e.answer = .token (some t) → ∃ first last, e.before.position ≤ first ∧ first < last ∧
    t.Whole text first last ∧ (e.call = .next → last = e.after.position)

theorem boundary_start (hv : Valid text) : CharBoundary text 0 := ⟨Nat.zero_le _, valid_nil, hv⟩

/-- In front of an end of the text that is made of characters there is a boundary. -/
theorem boundary_offset (hv : Valid text) (hs : rest <:+ text) (hrest : Valid rest) :
    CharBoundary text (SqlTables.offset text rest) := by
  have hdrop := drop_offset hs
  have hcut : Valid (text.take (SqlTables.offset text rest) ++ text.drop (SqlTables.offset text rest)) := by
    rw [List.take_append_drop]
    exact hv
  rw [← hdrop] at hrest
  exact ⟨offset_le text rest, (valid_of_cut hcut (head_of_valid hrest)).1, hrest⟩

/-- Between two boundaries there are characters. -/
theorem valid_between {j : Nat} (hi : CharBoundary text i) (hj : CharBoundary text j) :
    Valid ((text.take j).drop i) := by
  by_cases hle : i ≤ j
  · have hlength : i ≤ (text.take j).length := by
      rw [List.length_take_of_le hj.inside]
      exact hle
    have hsplit : (text.take j).drop i ++ text.drop j = text.drop i := by
      rw [← List.drop_append_of_le_length hlength, List.take_append_drop]
    have hback := hi.back
    rw [← hsplit] at hback
    exact (valid_of_cut hback (head_of_valid hj.back)).1
  · have hnil : (text.take j).drop i = [] := by
      rw [List.drop_eq_nil_iff, List.length_take]
      omega
    rw [hnil]
    exact valid_nil

/-- What a reader answers with the token it reads. -/
theorem whole_nextToken? (hv : Valid text) (hs : bs <:+ text) (hbs : Valid bs)
    (h : bs.nextToken? = some (t, rest)) :
    Valid rest ∧ rest <:+ text ∧ ∃ first, SqlTables.offset text bs ≤ first ∧
      first < SqlTables.offset text rest ∧ t.Whole text first (SqlTables.offset text rest) := by
  obtain ⟨gap, lexeme, rfl, hgap, -, hlexeme⟩ := nextToken?_eq_some_iff.mp h
  have hstart := valid_behind_gap hgap hbs
  obtain ⟨-, hheld, hrest⟩ := valid_lexeme hlexeme hstart
  have hsstart : lexeme ++ rest <:+ text := (List.suffix_append gap _).trans hs
  have hsrest : rest <:+ text := (List.suffix_append lexeme _).trans hsstart
  refine ⟨hrest, hsrest, SqlTables.offset text (lexeme ++ rest), ?_, ?_, ?_⟩
  · rw [← offset_append gap hs]
    exact Nat.le_add_right _ _
  · rw [← offset_append lexeme hsstart]
    exact Nat.lt_add_of_pos_right (List.length_pos_iff.mpr (lexeme_ne_nil hlexeme))
  · refine ⟨boundary_offset hv hsstart hstart, boundary_offset hv hsrest hrest, ⟨lexeme, ?_⟩, hheld,
      valid_spelling hheld⟩
    rw [drop_offset hsstart, drop_offset hsrest]
    exact ⟨rfl, hlexeme⟩

namespace Cursor

variable {c : Cursor} {call : Call} {answer : Answer}

/-- What a cursor has in front of it at a boundary. -/
theorem valid_rest (h : CharBoundary c.text c.position) : Valid c.rest := h.back

/-- A cursor that moves to where characters start cuts none. -/
theorem boundary_moveTo (hv : Valid c.text) (hs : rest <:+ c.rest) (hrest : Valid rest) :
    CharBoundary c.text (c.moveTo rest).position :=
  boundary_offset hv (hs.trans c.rest_suffix) hrest

/-- A call that answers nothing of the text. -/
theorem whole_silent {after : Cursor} (hbefore : CharBoundary text c.position)
    (hafter : CharBoundary text after.position) (hoffset : ∀ i, answer ≠ .offset i)
    (hbytes : ∀ bs, answer ≠ .bytes bs) (htoken : ∀ t, answer ≠ .token (some t)) :
    Event.Whole text ⟨c, call, answer, after⟩ where
  before := hbefore
  after := hafter
  offset i h := absurd h (hoffset i)
  bytes bs h := absurd h (hbytes bs)
  token t h := absurd h (htoken t)

/-- A call that returns an offset between characters and moves nothing. -/
theorem whole_offset {j : Nat} (h : CharBoundary text c.position) (hj : CharBoundary text j) :
    Event.Whole text ⟨c, call, .offset j, c⟩ where
  before := h
  after := h
  offset i hi := by
    cases hi
    exact hj
  bytes _ h := nomatch h
  token _ h := nomatch h

/-- A call that returns bytes of characters. -/
theorem whole_bytes {after : Cursor} (hbefore : CharBoundary text c.position)
    (hafter : CharBoundary text after.position) (hbs : Valid bs) :
    Event.Whole text ⟨c, call, .bytes bs, after⟩ where
  before := hbefore
  after := hafter
  offset _ h := nomatch h
  bytes _ h := by
    cases h
    exact hbs
  token _ h := nomatch h

/-- Behind a comment no character is cut. -/
theorem whole_skipComment (hv : Valid c.text) (h : CharBoundary c.text c.position) :
    Event.Whole c.text ⟨c, .skipComment, .flag c.skipComment.1, c.skipComment.2⟩ := by
  refine whole_silent h ?_ nofun nofun nofun
  unfold skipComment
  cases hafter : afterComment? c.rest with
  | none => exact h
  | some rest =>
      exact boundary_moveTo hv (afterComment?_suffix hafter) (valid_afterComment? hafter (valid_rest h))

/-- A quoted text is returned as characters, and none is cut behind it. -/
theorem whole_skipQuoted (hv : Valid c.text) (h : CharBoundary c.text c.position) :
    Event.Whole c.text ⟨c, .skipQuoted, .bytes c.skipQuoted.1, c.skipQuoted.2⟩ := by
  unfold skipQuoted
  cases hq : c.quote? with
  | none => exact whole_bytes h h valid_nil
  | some q =>
      obtain ⟨b, hb, hbyte⟩ := Option.bind_eq_some_iff.mp hq
      obtain rfl := Quote.byte_of_ofByte? hbyte
      rw [peekByte?_eq_head?, List.head?_eq_some_iff] at hb
      obtain ⟨tail, hrest⟩ := hb
      have htail : Valid tail := by
        have hvalid := valid_rest h
        rw [hrest] at hvalid
        exact (valid_of_ascii (a := []) (ascii_byte q) hvalid).2
      obtain ⟨hcontent, hback⟩ := valid_split (q := q) htail
      have hs : (q.split tail).2 <:+ c.rest := by
        rw [hrest]
        exact (Quote.split_rest_suffix q tail).trans (List.suffix_cons _ tail)
      rw [hrest]
      exact whole_bytes h (boundary_moveTo hv hs hback) hcontent

/-- The next token, whether the cursor goes behind it or stays. -/
theorem whole_token {after : Cursor} (hv : Valid c.text) (h : CharBoundary c.text c.position)
    (hafter : CharBoundary c.text after.position) (hnext : call = .next → after = c.next.2) :
    Event.Whole c.text ⟨c, call, .token c.next.1, after⟩ where
  before := h
  after := hafter
  offset _ h := nomatch h
  bytes _ h := nomatch h
  token t ht := by
    have hanswer : c.next = (some t, c.next.2) := Prod.ext (Answer.token.inj ht) rfl
    obtain ⟨hread, -, hposition⟩ := rest_of_next hanswer
    obtain ⟨-, -, first, hle, hlt, hwhole⟩ := whole_nextToken? hv c.rest_suffix (valid_rest h) hread
    rw [offset_rest h.inside] at hle
    rw [← hposition] at hlt hwhole
    refine ⟨first, c.next.2.position, hle, hlt, hwhole, ?_⟩
    intro hcall
    rw [hnext hcall]

/-- Behind the next token no character is cut. -/
theorem boundary_next (hv : Valid c.text) (h : CharBoundary c.text c.position) :
    CharBoundary c.text c.next.2.position := by
  unfold next
  cases hread : c.rest.nextToken? with
  | none => exact boundary_moveTo hv List.nil_suffix valid_nil
  | some r =>
      obtain ⟨t, rest⟩ := r
      obtain ⟨hrest, hs, -⟩ := whole_nextToken? hv c.rest_suffix (valid_rest h) hread
      exact boundary_offset hv hs hrest

/-- In front of a parenthesis that closes no character is cut. -/
theorem boundary_closing (hv : Valid c.text) (opening : Nat) :
    CharBoundary c.text (c.closing opening) := by
  have hs : c.text.drop (opening + 1) <:+ c.text := List.drop_suffix _ _
  exact boundary_offset hv ((fromClosing_suffix 0 _).trans hs) (valid_fromClosing hv hs)

/-- Behind a span there is an end of the text or a parenthesis just in front. -/
theorem boundary_enclosed (hv : Valid c.text) :
    CharBoundary c.text c.enclosed.2.position := by
  have hs : c.text.drop (c.position - 1 + 1) <:+ c.text := List.drop_suffix _ _
  have hfrom := (fromClosing_suffix 0 (c.text.drop (c.position - 1 + 1))).trans hs
  have hvalid := valid_fromClosing hv hs
  show CharBoundary c.text (min (c.closing (c.position - 1) + 1) c.text.length)
  unfold closing
  rcases fromClosing_cases 0 (c.text.drop (c.position - 1 + 1)) with ⟨hnil, -⟩ | ⟨rest, hclose, -⟩
  · have hend : min (c.text.length - (fromClosing 0 (c.text.drop (c.position - 1 + 1))).length + 1)
        c.text.length = SqlTables.offset c.text [] := by
      rw [hnil, offset_nil, List.length_nil]
      omega
    rw [hend]
    exact boundary_offset hv List.nil_suffix valid_nil
  · rw [hclose] at hfrom hvalid ⊢
    have hle := hfrom.length_le
    -- The parenthesis is one byte, and a byte of ASCII.
    have hbehind := offset_cons hfrom
    have hend : min (c.text.length - (')'.toUInt8 :: rest).length + 1) c.text.length =
        SqlTables.offset c.text rest := by
      rw [← hbehind, SqlTables.offset]
      rw [List.length_cons] at hle ⊢
      omega
    rw [hend]
    exact boundary_offset hv ((List.suffix_cons _ rest).trans hfrom)
      (valid_of_ascii (a := []) (by decide) hvalid).2

/-- The content of a parenthesis is returned as characters, and none is cut behind it. -/
theorem whole_enclosed (hv : Valid c.text) (h : CharBoundary c.text c.position) :
    Event.Whole c.text ⟨c, .enclosed, .bytes c.enclosed.1, c.enclosed.2⟩ := by
  apply whole_bytes h (boundary_enclosed hv)
  have hclose := boundary_closing hv (c.position - 1)
  -- The span starts at the cursor, or at its own end where that comes first.
  have hfirst : CharBoundary c.text (min c.position (c.closing (c.position - 1))) := by
    rcases Nat.le_total c.position (c.closing (c.position - 1)) with hle | hle
    · rw [Nat.min_eq_left hle]
      exact h
    · rw [Nat.min_eq_right hle]
      exact hclose
  exact valid_between hfirst hclose

/-- From a boundary every call leads to a boundary. -/
theorem whole_perform (hv : Valid c.text) (h : CharBoundary c.text c.position) (call : Call) :
    Event.Whole c.text ⟨c, call, (c.perform call).1, (c.perform call).2⟩ := by
  cases call with
  | position => exact whole_offset h h
  | atEnd => exact whole_silent h h nofun nofun nofun
  | peekByte => exact whole_silent h h nofun nofun nofun
  | atComment => exact whole_silent h h nofun nofun nofun
  | quote => exact whole_silent h h nofun nofun nofun
  | skipComment => exact whole_skipComment hv h
  | skipGap =>
      refine whole_silent h ?_ nofun nofun nofun
      exact boundary_moveTo hv (skipGap_suffix c.rest) (valid_skipGap (valid_rest h))
  | skipQuoted => exact whole_skipQuoted hv h
  | next => exact whole_token hv h (boundary_next hv h) (fun _ => rfl)
  | peek => exact whole_token hv h h nofun
  | closing opening => exact whole_offset h (boundary_closing hv opening)
  | enclosed => exact whole_enclosed hv h

/-- Calls one after another never cut a character. -/
theorem run_whole (hv : Valid c.text) (h : CharBoundary c.text c.position) (calls : List Call) :
    ∀ e ∈ c.run calls, e.Whole c.text := by
  induction calls generalizing c with
  | nil => exact List.forall_mem_nil _
  | cons call calls ih =>
      have hevent := whole_perform hv h call
      have htext : (c.perform call).2.text = c.text := (safe_perform h.inside call).after_text
      rw [run_cons, List.forall_mem_cons]
      refine ⟨hevent, ?_⟩
      rw [← htext] at hv
      have hafter := hevent.after
      rw [← htext] at hafter ⊢
      exact ih hv hafter

end Cursor

end SqlTables
