import SqlTables.Name
import SqlTables.Proofs.Token.Closed
import SqlTables.Proofs.Token.Lexeme

/-!
# `SqlTables.Proofs.Token.Written` — texts put together from words and names

Words are written with a blank behind each of them, and a name in quotes with its delimiters doubled. Such a
text has the tokens that it was put together from, whatever follows it.

## Contents
- **`Quote.write`**: a name in quotes, with `content_encode`, `collapse_encode` and `nextToken?_write`.
- **`spaced`** and **`tokens_spaced`**: words in front of a text.
-/

namespace SqlTables

variable {q : Quote} {b c : UInt8} {name rest z : Bytes}

/-! ## Names in quotes -/

namespace Quote

/-- A name between two delimiters, with each delimiter in it doubled. -/
def write (q : Quote) (name : Bytes) : Bytes := q.byte :: (q.encode name ++ [q.byte])

/-- Whether a name can be written in these quotes: a backslash cannot where it escapes. -/
def Writes (q : Quote) (name : Bytes) : Prop := q.escapes = true → '\\'.toUInt8 ∉ name

instance (q : Quote) (name : Bytes) : Decidable (q.Writes name) :=
  inferInstanceAs (Decidable (q.escapes = true → '\\'.toUInt8 ∉ name))

/-- Between backticks any name can be written: there is no escape in them. -/
theorem writes_backtick (name : Bytes) : backtick.Writes name := by
  intro h
  cases h

end Quote

theorem encode_cons (q : Quote) (b : UInt8) (name : Bytes) :
    q.encode (b :: name) = (if b = q.byte then [b, b] else [b]) ++ q.encode name :=
  List.flatMap_cons

/-- A name that can be written is the content of a quoted text. The induction is on the bytes of the name. -/
theorem content_encode (h : q.Writes name) : q.Content (q.encode name) := by
  induction name with
  | nil => exact .nil
  | cons b name ih =>
      have hrest := ih fun he hmem => h he (List.mem_cons_of_mem _ hmem)
      rw [encode_cons]
      by_cases hb : b = q.byte
      · subst hb
        rw [if_pos rfl]
        exact .doubled hrest
      · rw [if_neg hb]
        refine .plain ?_ hrest
        rw [← Bool.not_eq_true, isMark_iff]
        rintro (hbyte | ⟨he, rfl⟩)
        · exact hb hbyte
        · exact h he List.mem_cons_self

theorem collapse_cons_of_ne (h : b ≠ q.byte) (rest : Bytes) :
    q.collapse (b :: rest) = b :: q.collapse rest := by
  cases rest with
  | nil => rfl
  | cons c rest => exact if_neg fun hboth => h hboth.1

/-- Doubling the delimiters of a name and taking each pair as one gives the name back. -/
theorem collapse_encode (q : Quote) (name : Bytes) : q.collapse (q.encode name) = name := by
  induction name with
  | nil => rfl
  | cons b name ih =>
      rw [encode_cons]
      by_cases hb : b = q.byte
      · subst hb
        rw [if_pos rfl]
        show q.collapse (q.byte :: q.byte :: q.encode name) = _
        rw [Quote.collapse, if_pos ⟨rfl, rfl⟩, ih]
      · rw [if_neg hb]
        show q.collapse (b :: q.encode name) = _
        rw [collapse_cons_of_ne hb, ih]

/-- No comment starts with a delimiter. -/
theorem startsComment_byte (q : Quote) (rest : Bytes) : startsComment (q.byte :: rest) = false := by
  refine startsComment_eq_false ?_ ?_
  · intro hl
    rcases (startsLineComment_cons _ _).mp hl with h | ⟨h, _⟩
    · cases q <;> exact absurd h (by decide)
    · cases q <;> exact absurd h (by decide)
  · intro hb
    obtain ⟨tail, ht⟩ := startsBlockComment_iff.mp hb
    have hslash := (List.cons.inj ht).1
    cases q <;> exact absurd hslash (by decide)

theorem skipGap_byte (q : Quote) (rest : Bytes) : skipGap (q.byte :: rest) = q.byte :: rest := by
  have hsep : isSeparator q.byte = false := by cases q <;> decide
  exact skipGap_of_startsComment hsep (startsComment_byte q rest)

/-- A name in quotes is the next token, where no further delimiter follows. -/
theorem nextToken?_write (h : q.Writes name) (hz : z.head? ≠ some q.byte) :
    Bytes.nextToken? (q.write name ++ z) = some (.quoted q (q.encode name), z) := by
  have hgap : skipGap (q.write name ++ z) = q.write name ++ z := skipGap_byte q _
  exact nextToken?_lexeme hgap (.quoted (content_encode h) hz)

theorem tokens_write (h : q.Writes name) (hz : z.head? ≠ some q.byte) :
    Bytes.tokens (q.write name ++ z) = .quoted q (q.encode name) :: z.tokens :=
  tokens_of_nextToken? (nextToken?_write h hz)

/-- The text under which a name is recorded. -/
def recordedName (lower : Bool) (name : Bytes) : String :=
  let text := String.ofList (Utf8.decodeLossy name)
  if lower then LowerCase.toLower text else text

/-- A name that is read from quotes is the name that was written. -/
theorem name_encode (q : Quote) (name : Bytes) (lower : Bool) :
    (Token.quoted q (q.encode name)).name lower = recordedName lower name := by
  unfold Token.name recordedName
  rw [Token.spelling, collapse_encode]

/-! ## Words -/

/-- Whether a text is one word. -/
def isWord (text : String) : Bool := !(ascii text).isEmpty && (ascii text).all isWordByte

/-- Words, a blank behind each of them, and what follows. -/
def spaced : List String → Bytes → Bytes
  | [], z => z
  | word :: words, z => ascii word ++ ' '.toUInt8 :: spaced words z

/-- A row of bytes of words is one token in front of any other byte. -/
theorem tokens_wordText {text : Bytes} (hne : text ≠ []) (h : ∀ b ∈ text, isWordByte b = true)
    (hc : isWordByte c = false) (z : Bytes) :
    Bytes.tokens (text ++ c :: z) = .word text :: Bytes.tokens (c :: z) := by
  obtain ⟨b, rest, rfl⟩ := List.exists_cons_of_ne_nil hne
  have hstop : ¬ isWordByte c = true := by
    rw [hc]
    exact Bool.false_ne_true
  have hrest : ∀ b ∈ rest, isWordByte b = true := fun b hb => h b (List.mem_cons_of_mem _ hb)
  rw [List.cons_append, tokens_word (h b List.mem_cons_self), List.takeWhile_append_of_pos hrest,
    List.dropWhile_append_of_pos hrest, List.takeWhile_cons_of_neg hstop,
    List.dropWhile_cons_of_neg hstop, List.append_nil]

/-- Words with a blank behind each of them are one token each. -/
theorem tokens_spaced {words : List String} (h : ∀ word ∈ words, isWord word = true) (z : Bytes) :
    Bytes.tokens (spaced words z) = words.map (fun word => .word (ascii word)) ++ z.tokens := by
  induction words with
  | nil => rfl
  | cons word words ih =>
      obtain ⟨hword, hwords⟩ := List.forall_mem_cons.mp h
      obtain ⟨hne, hall⟩ := (Bool.and_eq_true _ _).mp hword
      have hne' : ascii word ≠ [] := by
        intro he
        rw [he] at hne
        cases hne
      rw [spaced, tokens_wordText hne' (List.all_eq_true.mp hall) (by decide),
        tokens_separator (by decide), ih hwords]
      rfl

end SqlTables
