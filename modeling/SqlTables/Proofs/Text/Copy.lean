import SqlTables.Proofs.Occurrence
import SqlTables.Proofs.Text.Whole

/-!
# `SqlTables.Proofs.Text.Copy` — names are copied from the text

A name is read out of the bytes that a token holds. In a text of characters these are characters of the text,
and reading them back gives the same characters. So a name is a copy of what is written, and a replacement
character is found in it only where one has been written.

## Contents
- **`tokens_written`**: where the tokens of a text are written.
- **`CopiedFrom`**: a name that is copied from a text, with `copiedFrom_of_mem`.
- **`characters_whole`**: neither a reader nor a name takes a character apart.
-/

namespace SqlTables

open Utf8

variable {bs : Bytes} {t : Token}

/-! ## Tokens in the text -/

/-- Every token of a text is written in it, between characters. -/
theorem tokens_written (hv : Valid bs) (h : t ∈ bs.tokens) :
    ∃ front lexeme back, bs = front ++ (lexeme ++ back) ∧ Lexeme t lexeme back ∧
      Valid front ∧ Valid lexeme ∧ Valid back := by
  fun_induction Bytes.tokens bs with
  | case2 => cases h
  | case1 bs u rest hread ih =>
      obtain ⟨gap, lexeme, rfl, hgap, -, hlexeme⟩ := nextToken?_eq_some_iff.mp hread
      have hstart := valid_behind_gap hgap hv
      have hgapValid := (valid_of_cut hv (head_of_valid hstart)).1
      obtain ⟨hwritten, -, hrest⟩ := valid_lexeme hlexeme hstart
      rcases List.mem_cons.mp h with rfl | hmore
      · exact ⟨gap, lexeme, rest, rfl, hlexeme, hgapValid, hwritten, hrest⟩
      · obtain ⟨front, inner, back, rfl, hinner, hfront, hinside, hback⟩ := ih hrest hmore
        refine ⟨gap ++ (lexeme ++ front), inner, back, ?_, hinner, ?_, hinside, hback⟩
        · simp only [List.append_assoc]
        · exact valid_append hgapValid (valid_append hwritten hfront)

/-- Different characters have different bytes. -/
theorem encode_injective {a b : List Char} (h : encode a = encode b) : a = b := by
  have hread := congrArg decodeLossy h
  rwa [decodeLossy_encode, decodeLossy_encode] at hread

/-- The characters that a token holds are among those it is written with. -/
theorem held_infix_written {written held : List Char} {rest : Bytes} (h : Lexeme t (encode written) rest)
    (hheld : t.held = encode held) : held <:+: written := by
  -- Bytes tell their characters, so the delimiters can be taken off as characters.
  generalize hbytes : encode written = bytes at h
  cases h with
  | word =>
      have hsame := encode_injective (hbytes.trans hheld)
      subst hsame
      exact List.infix_rfl
  | @quoted q content _ _ _ =>
      have hsame : encode written = encode ([q.char] ++ held ++ [q.char]) := by
        rw [encode_append, encode_append, Utf8.encode_cons, encode_nil, encode_char, hbytes, ← hheld]
        rfl
      rw [encode_injective hsame]
      exact List.infix_append _ _ _
  | @openQuoted q content _ =>
      have hsame : encode written = encode (q.char :: held) := by
        rw [Utf8.encode_cons, encode_char, hbytes, ← hheld]
        rfl
      rw [encode_injective hsame]
      exact (List.suffix_cons _ _).isInfix
  | punct =>
      have hsame := encode_injective (hbytes.trans hheld)
      subst hsame
      exact List.infix_rfl

/-! ## Names in the text -/

/-- A name that is copied from a text. An identifier is written in the text with some characters, it holds
    some of them, and the name is made of these, with a single delimiter for each doubled one. The bytes of
    the name are those that the identifier spells, and it has as many replacement characters as are held. -/
def CopiedFrom (text name : String) : Prop :=
  ∃ (t : Token) (front written back held : List Char),
    text.toList = front ++ (written ++ back) ∧ t ∈ (utf8 text).tokens ∧ t.isIdentifier = true ∧
      Lexeme t (encode written) (encode back) ∧ held <:+: written ∧ t.held = encode held ∧
      name.toList = t.copied held ∧ utf8 name = t.spelling ∧
      name.toList.count replacement = held.count replacement

/-- The name of a token has the characters that the token copies. -/
theorem name_toList {held : List Char} (h : t.held = encode held) :
    (t.name false).toList = t.copied held := by
  rw [Token.name, spelling_eq h, decodeLossy_encode]
  exact String.toList_ofList

/-- No delimiter is a replacement character. -/
theorem count_copied (h : t.isIdentifier = true) (held : List Char) :
    (t.copied held).count replacement = held.count replacement := by
  cases t with
  | word => rfl
  | quoted q content =>
      have hne : replacement ≠ q.char := by cases q <;> decide
      exact count_collapsePairs hne held
  | punct => cases h

/-- The name of an identifier of a text is copied from the text. -/
theorem copiedFrom_of_mem {text : String} (ht : t ∈ (utf8 text).tokens) (hid : t.isIdentifier = true) :
    CopiedFrom text (t.name false) := by
  obtain ⟨front, lexeme, back, hsplit, hlexeme, ⟨frontChars, rfl⟩, ⟨written, rfl⟩, ⟨backChars, rfl⟩⟩ :=
    tokens_written (valid_utf8 text) ht
  -- What the token holds is made of characters, because the lexeme and what follows it are.
  have hback := valid_append ⟨written, rfl⟩ ⟨backChars, rfl⟩
  obtain ⟨-, ⟨held, hheld⟩, -⟩ := valid_lexeme hlexeme hback
  have hname := name_toList hheld
  refine ⟨t, frontChars, written, backChars, held, ?_, ht, hid, hlexeme,
    held_infix_written hlexeme hheld, hheld, hname, ?_, ?_⟩
  · rw [utf8_eq_encode, ← encode_append, ← encode_append] at hsplit
    exact encode_injective hsplit
  · rw [utf8_eq_encode, hname, spelling_eq hheld]
  · rw [hname, count_copied hid]

/-! ## Names of references -/

/-- The names of a reference: that of the schema, if there is one, and that of the table. -/
def TableReference.names (r : TableReference) : List String := r.schema.toList ++ [r.table]

/-- The names of a reference are those of identifiers. -/
theorem named_of_occurs {lower : Bool} {ts : List Token} {refs : List TableReference}
    (h : Occurs lower ts refs) :
    ∀ r ∈ refs, ∀ name ∈ r.names, ∃ t ∈ ts, t.isIdentifier = true ∧ t.name lower = name := by
  induction h with
  | nil => exact List.forall_mem_nil _
  | skip t _ ih =>
      intro r hr name hname
      obtain ⟨u, hu, hid⟩ := ih r hr name hname
      exact ⟨u, List.mem_cons_of_mem t hu, hid⟩
  | @table t ts refs ht _ ih =>
      rw [List.forall_mem_cons]
      constructor
      · intro name hname
        rw [List.mem_singleton.mp hname]
        exact ⟨t, List.mem_cons_self, ht, rfl⟩
      · intro r hr name hname
        obtain ⟨u, hu, hid⟩ := ih r hr name hname
        exact ⟨u, List.mem_cons_of_mem t hu, hid⟩
  | @qualified u t ts refs hu ht _ ih =>
      rw [List.forall_mem_cons]
      constructor
      · intro name hname
        rcases List.mem_pair.mp hname with rfl | rfl
        · exact ⟨u, List.mem_cons_self, hu, rfl⟩
        · exact ⟨t, by simp, ht, rfl⟩
      · intro r hr name hname
        obtain ⟨v, hv, hid⟩ := ih r hr name hname
        exact ⟨v, List.mem_append_right [u, .sym '.', t] hv, hid⟩

/-- **Characters stay whole.** Whatever is asked of a cursor in a text, it stops between characters, tokens
    begin and end there, and what they hold and spell is made of characters, as are the spans and the quoted
    texts that are cut out. Every name that reading the text adds to a summary is copied from the text. -/
theorem characters_whole (text : String) :
    (∀ calls, ∀ e ∈ (Cursor.start (utf8 text)).run calls, e.Whole (utf8 text)) ∧
      ∀ (summary : Summary) (maxDepth : Nat), ∃ found,
        (summary.read { maxDepth, lowerCaseNames := false } (utf8 text)).references =
            summary.references ++ found ∧
          ∀ r ∈ found, ∀ name ∈ r.names, CopiedFrom text name := by
  have hv := valid_utf8 text
  constructor
  · intro calls
    exact Cursor.run_whole hv (boundary_start hv) calls
  · intro summary maxDepth
    refine ⟨_, rfl, ?_⟩
    intro r hr name hname
    rw [extract_tokens] at hr
    obtain ⟨t, ht, hid, rfl⟩ := named_of_occurs (occurs_extract _ _ _) r hr name hname
    exact copiedFrom_of_mem ht hid

/-- A backslash in front of a character outside of ASCII, and a replacement character in a name. -/
example : (parse {} (utf8 "SELECT '\\é)' FROM `größe``\uFFFD`.日本(x) /* ü")).references =
    [⟨some "größe`\uFFFD", "日本"⟩] := by
  decide +kernel

end SqlTables
