import SqlTables.Proofs.Cursor
import SqlTables.Proofs.Token.Written

/-!
# `SqlTables.Proofs.Cursor.Quoting` — names in quotes, there and back

A name that is written in quotes is read as one token and spelled by it again, and the content of a name that
is read in grave accents can be written from what it spells. Both pair up the delimiters from the left, so
neither loses one of a long row of them.

## Contents
- **`encode_collapse`**: the content that a spelling came from.
- **`next_write`**: a name behind a cursor.
- **`quoting_roundTrip`**: both ways.
-/

namespace SqlTables

variable {q : Quote} {content lexeme name rest : Bytes}

/-! ## From the content to the name and back -/

/-- Taking each pair of delimiters as one loses nothing: doubling them again gives the content back, unless a
    backslash keeps a delimiter single. -/
theorem encode_collapse (h : q.Content content) (hplain : q.Writes content) :
    q.encode (q.collapse content) = content := by
  induction h with
  | nil => rfl
  | @plain b rest hb _ ih =>
      have hne : b ≠ q.byte := by
        rintro rfl
        rw [isMark_byte] at hb
        cases hb
      have hrest := ih fun he hmem => hplain he (List.mem_cons_of_mem _ hmem)
      rw [collapse_cons_of_ne hne, encode_cons, if_neg hne, hrest]
      rfl
  | @doubled rest _ ih =>
      have hrest : q.Writes rest := by
        intro he hmem
        exact hplain he (List.mem_cons_of_mem _ (List.mem_cons_of_mem _ hmem))
      rw [Quote.collapse, if_pos ⟨rfl, rfl⟩, encode_cons, if_pos rfl, ih hrest]
      rfl
  | escaped he => exact absurd List.mem_cons_self (hplain he)

/-- The content of a quoted token is one that can stand in quotes, or is never closed. -/
theorem unclosed_of_lexeme (h : Lexeme (.quoted q content) lexeme rest) : q.Unclosed content := by
  cases h with
  | quoted hc => exact .content hc
  | openQuoted hopen => exact hopen

/-- Where nothing escapes, a text that is never closed holds nothing that a closed one could not. -/
theorem content_of_unclosed (h : q.Unclosed content) (hplain : q.Writes content) :
    q.Content content := by
  cases h with
  | content hc => exact hc
  | backslash he _ => exact absurd (List.mem_append_right _ List.mem_cons_self) (hplain he)

/-! ## Names behind a cursor -/

namespace Cursor

variable {c c' : Cursor}

/-- A name in quotes is one token, and behind it the cursor stands in front of what follows. -/
theorem next_write (h : c.rest = q.write name ++ rest) (hname : q.Writes name)
    (hrest : rest.head? ≠ some q.byte) :
    c.next = (some (.quoted q (q.encode name)), ⟨c.text, c.position + (q.write name).length⟩) := by
  have hnext : c.rest.nextToken? = some (.quoted q (q.encode name), rest) := by
    rw [h]
    exact nextToken?_write hname hrest
  have hlength := congrArg List.length h
  have hpos : 0 < (q.write name).length := Nat.succ_pos _
  refine next_eq_some_iff.mpr ⟨rest, hnext, ?_⟩
  rw [moveTo, Cursor.mk.injEq]
  refine ⟨rfl, ?_⟩
  rw [Cursor.rest, List.length_drop, List.length_append] at hlength
  omega

/-- **Names in quotes, there and back.** Wherever a name is written between two delimiters with those inside
    it doubled, and no further delimiter follows, the cursor reads one quoted token up to the end of what was
    written, and the token spells the name. And doubling the grave accents of what a token spells gives its
    content, whether the token was closed or not. -/
theorem quoting_roundTrip :
    (∀ (c : Cursor) (q : Quote) (name rest : Bytes),
      c.rest = q.write name ++ rest → q.Writes name → rest.head? ≠ some q.byte →
        ∃ content, c.next = (some (.quoted q content), ⟨c.text, c.position + (q.write name).length⟩) ∧
          (Token.quoted q content).name false = String.ofList (Utf8.decodeLossy name)) ∧
      ∀ (c c' : Cursor) (content : Bytes), c.next = (some (.quoted .backtick content), c') →
        Quote.encode .backtick (Quote.collapse .backtick content) = content := by
  constructor
  · intro c q name rest hc hname hrest
    exact ⟨q.encode name, next_write hc hname hrest, name_encode q name false⟩
  · intro c c' content hnext
    obtain ⟨htoken, -, -⟩ := rest_of_next hnext
    obtain ⟨gap, lexeme, -, -, -, hlexeme⟩ := nextToken?_eq_some_iff.mp htoken
    have hplain := Quote.writes_backtick content
    exact encode_collapse (content_of_unclosed (unclosed_of_lexeme hlexeme) hplain) hplain

/-- A name that starts with its delimiter, an empty one, and a content that nothing closes. -/
theorem quoting_roundTrip_delimiters :
    let c : Cursor := ⟨ascii "s.```b` x", 2⟩
    (∃ content, c.next = (some (.quoted .backtick content), ⟨c.text, 7⟩) ∧
        (Token.quoted .backtick content).name false = "`b") ∧
      (∃ content, (start (ascii "\"\"")).next = (some (.quoted .double content), ⟨ascii "\"\"", 2⟩) ∧
        (Token.quoted .double content).name false = "") ∧
      (start (ascii "`a``")).next = (some (.quoted .backtick (ascii "a``")), ⟨ascii "`a``", 4⟩) ∧
      Quote.encode .backtick (Quote.collapse .backtick (ascii "a``")) = ascii "a``" := by
  intro c
  obtain ⟨hwrite, hread⟩ := quoting_roundTrip
  have hopen : (start (ascii "`a``")).next =
      (some (.quoted .backtick (ascii "a``")), ⟨ascii "`a``", 4⟩) := by
    decide +kernel
  refine ⟨?_, ?_, hopen, hread _ _ _ hopen⟩
  · exact hwrite c .backtick (ascii "`b") (ascii " x") (by decide) (Quote.writes_backtick _) (by decide)
  · exact hwrite (start (ascii "\"\"")) .double [] [] (by decide) (by decide) (by decide)

end Cursor

end SqlTables
