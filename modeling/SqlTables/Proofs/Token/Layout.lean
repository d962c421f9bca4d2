import SqlTables.Proofs.Token.Written

/-!
# `SqlTables.Proofs.Token.Layout` — a text that is laid out anew

The tokens of a text stay when another text follows on a new line, and when each of them is written down again
with a blank behind it. What could change them is left open at the end of the text: a quoted text takes in
whatever follows, and so does a comment in `/*` and `*/`.

## Contents
- **`Ending`** and **`Bytes.ending`**: what a text is inside of at its end.
- **`Token.Readable`**, **`Token.print`** and **`printed`**: tokens written down again.
- **`readable_of_nextToken?`**: what is read can be written down, unless it is never closed.
- **`tokens_printed`** and **`tokens_layout`**: both ways to lay a text out.
-/

namespace SqlTables

/-! ## The end of a text -/

/-- What a text is inside of at its end. -/
inductive Ending where
  /-- Nothing, or a comment that ends with its line. -/
  | plain
  /-- A comment in `/*` and `*/`. -/
  | block
  /-- A quoted text. -/
  | quote
  deriving DecidableEq

/-- What a text is inside of at its end. -/
def Bytes.ending (bs : Bytes) : Ending :=
  match bs with
  | [] => .plain
  | b :: rest =>
      if startsLineComment (b :: rest) then Bytes.ending (afterLine (b :: rest))
      else if startsBlockComment (b :: rest) then
        if (Bytes.offset? (ascii "*/") (rest.drop 1)).isSome then
          Bytes.ending (afterBlock (rest.drop 1))
        else .block
      else
        match Quote.ofByte? b with
        | some q => if (q.closing? rest).isSome then Bytes.ending (q.split rest).2 else .quote
        | none => Bytes.ending rest
termination_by bs.length
decreasing_by
  · exact afterLine_length
  · have := (afterBlock_suffix (rest.drop 1)).length_le
    simp only [List.length_drop, List.length_cons] at this ⊢
    omega
  · exact Nat.lt_succ_of_le (Quote.split_rest_suffix _ rest).length_le
  · exact Nat.lt_succ_self _

variable {bs lexeme rest tail : Bytes} {b : UInt8} {q : Quote} {t : Token}

/-- A text leaves nothing open if it ends outside of quotes and of comments in `/*` and `*/`. -/
theorem closes_iff_ending : bs.closes = true ↔ bs.ending ≠ .quote ∧ bs.ending ≠ .block := by
  fun_induction Bytes.ending bs with
  | case1 => simp [Bytes.closes]
  | case2 b rest hl ih => rw [Bytes.closes, if_pos hl, ih]
  | case3 b rest hl hb ho ih =>
      rw [Bytes.closes, if_neg hl, if_pos hb, ho, Bool.true_and, ih]
  | case4 b rest hl hb ho =>
      rw [Bytes.closes, if_neg hl, if_pos hb, Bool.and_eq_true]
      exact iff_of_false (fun h => ho h.1) (fun h => h.2 rfl)
  | case5 b rest hl hb q hq hc ih =>
      rw [Bytes.closes, if_neg hl, if_neg hb, hq]
      simp only [hc, Bool.true_and]
      exact ih
  | case6 b rest hl hb q hq hc =>
      rw [Bytes.closes, if_neg hl, if_neg hb, hq]
      simp [hc]
  | case7 b rest hl hb hq ih =>
      rw [Bytes.closes, if_neg hl, if_neg hb, hq]
      exact ih

/-! ## The end behind a part of the text -/

/-- A byte that opens neither a comment nor a quoted text leaves the end of the text as it is. -/
theorem ending_of_ofByte? (hs : startsComment (b :: rest) = false) (hq : Quote.ofByte? b = none) :
    Bytes.ending (b :: rest) = rest.ending := by
  obtain ⟨hl, hb⟩ := Bool.or_eq_false_iff.mp hs
  rw [Bytes.ending, hl, hb, hq]
  rfl

/-- No comment starts with a separator. -/
theorem startsComment_of_isSeparator (h : isSeparator b = true) (rest : Bytes) :
    startsComment (b :: rest) = false := by
  rw [← Bool.not_eq_true]
  intro hs
  rw [isSeparator_of_startsComment hs] at h
  cases h

theorem ofByte?_of_isSeparator (h : isSeparator b = true) : Quote.ofByte? b = none := by
  cases hq : Quote.ofByte? b with
  | none => rfl
  | some q =>
      rw [← Quote.byte_of_ofByte? hq] at h
      cases q <;> exact absurd h (by decide)

/-- Separators leave the end of the text as it is. -/
theorem ending_dropWhile (bs : Bytes) : Bytes.ending (bs.dropWhile isSeparator) = bs.ending := by
  induction bs with
  | nil => rfl
  | cons b rest ih =>
      by_cases hb : isSeparator b = true
      · rw [List.dropWhile_cons_of_pos hb, ih]
        exact (ending_of_ofByte? (startsComment_of_isSeparator hb rest) (ofByte?_of_isSeparator hb)).symm
      · rw [List.dropWhile_cons_of_neg hb]

/-- A comment that something follows has been closed. -/
theorem ending_afterComment? (h : afterComment? bs = some rest) (hrest : rest ≠ []) :
    bs.ending = rest.ending := by
  cases bs with
  | nil => exact absurd (afterComment?_length h) (Nat.not_lt_zero _)
  | cons b tail =>
      unfold afterComment? at h
      by_cases hl : startsLineComment (b :: tail) = true
      · rw [if_pos hl] at h
        cases h
        rw [Bytes.ending, if_pos hl]
      · rw [if_neg hl] at h
        by_cases hb : startsBlockComment (b :: tail) = true
        · rw [if_pos hb] at h
          cases h
          rw [List.drop_succ_cons] at hrest ⊢
          rw [Bytes.ending, if_neg hl, if_pos hb, if_pos (offset?_isSome_of_afterBlock hrest)]
        · rw [if_neg hb] at h
          cases h

/-- A gap that something follows leaves the end of the text as it is. -/
theorem ending_skipGap (h : skipGap bs ≠ []) : bs.ending = (skipGap bs).ending := by
  fun_induction skipGap bs with
  | case1 bs rest hc ih =>
      have hrest : rest ≠ [] := by
        rintro rfl
        exact h (List.suffix_nil.mp (skipGap_suffix []))
      rw [← ending_dropWhile, ending_afterComment? hc hrest, ih h]
  | case2 bs hc => exact (ending_dropWhile bs).symm

theorem startsComment_of_significant (h : Significant bs) : startsComment bs = false :=
  afterComment?_eq_none_iff.mp (significant_iff.mp h).2

theorem startsComment_of_isWordByte (h : isWordByte b = true) (rest : Bytes) :
    startsComment (b :: rest) = false := by
  have hstart := significant_skipGap (b :: rest)
  rw [skipGap_of_isWordByte h] at hstart
  exact startsComment_of_significant hstart

theorem ending_word {text : Bytes} (h : ∀ b ∈ text, isWordByte b = true) (rest : Bytes) :
    Bytes.ending (text ++ rest) = rest.ending := by
  induction text with
  | nil => rfl
  | cons b text ih =>
      obtain ⟨hb, htext⟩ := List.forall_mem_cons.mp h
      have hstart := startsComment_of_isWordByte hb (text ++ rest)
      rw [List.cons_append, ending_of_ofByte? hstart (ofByte?_of_isWordByte hb)]
      exact ih htext

/-- Behind a delimiter the text ends inside of quotes, or as what follows the closing delimiter does. -/
theorem ending_byte (q : Quote) (rest : Bytes) :
    Bytes.ending (q.byte :: rest) =
      if (q.closing? rest).isSome then Bytes.ending (q.split rest).2 else .quote := by
  obtain ⟨hl, hb⟩ := Bool.or_eq_false_iff.mp (startsComment_byte q rest)
  rw [Bytes.ending, hl, hb, Quote.ofByte?_byte]
  rfl

/-! ## Tokens written down again -/

/-- A token as it is written: the raw content of a quoted text stands between its delimiters. -/
def Token.print : Token → Bytes
  | word text => text
  | quoted q content => q.byte :: (content ++ [q.byte])
  | punct b => [b]

/-- Tokens with a single blank between each two of them. -/
def printed (ts : List Token) : Bytes := (ascii " ").intercalate (ts.map Token.print)

theorem printed_singleton (t : Token) : printed [t] = t.print := List.append_nil _

theorem printed_cons_cons (t u : Token) (ts : List Token) :
    printed (t :: u :: ts) = t.print ++ (ascii " " ++ printed (u :: ts)) := by
  simp [printed, List.intercalate]

/-- Whether a token reads as itself when it is written down on its own. -/
def Token.Readable : Token → Prop
  | word text => text ≠ [] ∧ ∀ b ∈ text, isWordByte b = true
  | quoted q content => q.Content content
  | punct b => isSeparator b = false ∧ isWordByte b = false ∧ Quote.ofByte? b = none ∧ b ≠ '#'.toUInt8

/-- A lexeme that leaves no quoted text open is the printed token, and the text ends as what follows does. -/
theorem readable_of_lexeme (h : Lexeme t lexeme rest) (hstart : Significant (lexeme ++ rest))
    (hend : (lexeme ++ rest).ending ≠ .quote) :
    t.Readable ∧ (lexeme ++ rest).ending = rest.ending := by
  have hcomment := startsComment_of_significant hstart
  cases h with
  | word hne hword hrest => exact ⟨⟨hne, hword⟩, ending_word hword rest⟩
  | @quoted q content rest hc hrest =>
      have hsplit : q.byte :: (content ++ [q.byte]) ++ rest =
          q.byte :: (content ++ q.byte :: rest) := by
        simp
      have hclosing : (q.closing? (content ++ q.byte :: rest)).isSome = true := by
        rw [passes_content hc, closing?_end hrest]
        rfl
      refine ⟨hc, ?_⟩
      rw [hsplit, ending_byte, if_pos hclosing, split_content hc hrest]
  | @openQuoted q content hopen =>
      rw [List.append_nil, ending_byte, closing?_unclosed hopen] at hend
      exact absurd rfl hend
  | punct rest hsep hb hq hash => exact ⟨⟨hsep, hb, hq, hash⟩, ending_of_ofByte? hcomment hq⟩

/-- A token that is read from a text without open quotes can be written down on its own, and what is left has
    no open quotes either. -/
theorem readable_of_nextToken? (h : bs.nextToken? = some (t, rest)) (hend : bs.ending ≠ .quote) :
    t.Readable ∧ rest.ending ≠ .quote := by
  obtain ⟨lexeme, hgap, hlexeme⟩ := exists_lexeme h (significant_skipGap bs)
  have hstart := significant_skipGap bs
  have hne : skipGap bs ≠ [] := by
    rw [hgap]
    simp [lexeme_ne_nil hlexeme]
  rw [ending_skipGap hne, hgap] at hend
  rw [hgap] at hstart
  obtain ⟨hread, hsame⟩ := readable_of_lexeme hlexeme hstart hend
  rw [hsame] at hend
  exact ⟨hread, hend⟩

/-- All tokens of a text without open quotes can be written down on their own. -/
theorem readable_tokens (h : bs.ending ≠ .quote) : ∀ t ∈ bs.tokens, t.Readable := by
  fun_induction Bytes.tokens bs with
  | case1 bs t rest hn ih =>
      obtain ⟨hread, hend⟩ := readable_of_nextToken? hn h
      exact List.forall_mem_cons.mpr ⟨hread, ih hend⟩
  | case2 bs hn => exact List.forall_mem_nil _

/-! ## In front of a blank -/

/-- Nothing follows, or a blank and more. -/
def Blank (rest : Bytes) : Prop := ∀ b, rest.head? = some b → b = ' '.toUInt8

/-- In front of a blank a printed token is a lexeme of itself. -/
theorem lexeme_print (h : t.Readable) (hrest : Blank rest) : Lexeme t t.print rest := by
  cases t with
  | word text =>
      refine .word h.1 h.2 ?_
      intro b hb
      rw [hrest b hb]
      decide
  | quoted q content =>
      refine .quoted h ?_
      intro hb
      have hblank := hrest _ hb
      cases q <;> exact absurd hblank (by decide)
  | punct b => exact .punct rest h.1 h.2.1 h.2.2.1 h.2.2.2

/-- Neither a dash nor a slash opens a comment in front of a blank. -/
theorem startsComment_blank (hash : b ≠ '#'.toUInt8) (hrest : Blank rest) :
    startsComment (b :: rest) = false := by
  refine startsComment_eq_false ?_ ?_
  · rw [startsLineComment_cons]
    rintro (rfl | ⟨rfl, tail, rfl, -⟩)
    · exact hash rfl
    · exact absurd (hrest _ rfl) (by decide)
  · rw [startsBlockComment_iff]
    rintro ⟨tail, ht⟩
    obtain ⟨rfl, rfl⟩ := List.cons.inj ht
    exact absurd (hrest _ rfl) (by decide)

theorem skipGap_print (h : t.Readable) (hrest : Blank rest) :
    skipGap (t.print ++ rest) = t.print ++ rest := by
  cases t with
  | word text =>
      obtain ⟨b, tail, rfl⟩ := List.exists_cons_of_ne_nil h.1
      exact skipGap_of_isWordByte (h.2 b List.mem_cons_self) _
  | quoted q content => exact skipGap_byte q _
  | punct b => exact skipGap_of_startsComment h.1 (startsComment_blank h.2.2.2 hrest)

/-- A printed token is read as itself in front of a blank. -/
theorem tokens_print (h : t.Readable) (hrest : Blank rest) :
    Bytes.tokens (t.print ++ rest) = t :: rest.tokens :=
  tokens_of_nextToken? (nextToken?_lexeme (skipGap_print h hrest) (lexeme_print h hrest))

/-- Printed tokens are read as themselves. The induction is on the tokens, the last of which has no blank
    behind it. -/
theorem tokens_printed {ts : List Token} (h : ∀ t ∈ ts, t.Readable) :
    Bytes.tokens (printed ts) = ts := by
  induction ts with
  | nil => exact tokens_nil
  | cons t ts ih =>
      obtain ⟨ht, hts⟩ := List.forall_mem_cons.mp h
      cases ts with
      | nil =>
          have hnil : Blank [] := by
            intro b hb
            cases hb
          have hone := tokens_print ht hnil
          rw [List.append_nil, tokens_nil] at hone
          rw [printed_singleton, hone]
      | cons u ts =>
          have hblank : Blank (ascii " " ++ printed (u :: ts)) := by
            intro b hb
            exact (Option.some.inj hb).symm
          rw [printed_cons_cons, tokens_print ht hblank]
          exact congrArg (t :: ·) ((tokens_separator (by decide) _).trans (ih hts))

/-! ## Both layouts -/

/-- **Tokens stay in another layout.** What follows on a new line adds its own tokens to those of a text that
    does not end in quotes or in a comment in `/*` and `*/`. The tokens of a text that does not end in quotes
    are read again where they are written with single blanks between them. -/
theorem tokens_layout :
    (∀ a z : Bytes, a.ending ≠ .quote → a.ending ≠ .block →
        Bytes.tokens (onNewLine a z) = a.tokens ++ z.tokens) ∧
      ∀ text : Bytes, text.ending ≠ .quote → Bytes.tokens (printed text.tokens) = text.tokens := by
  constructor
  · intro a z hquote hblock
    exact tokens_append_of_closes (closes_iff_ending.mpr ⟨hquote, hblock⟩) z
  · intro text hquote
    exact tokens_printed (readable_tokens hquote)

/-- The first text ends in a comment, whose dashes meet another one. In the second one dashes, a slash and a
    star, two words and two delimiters stand close together, and its last comment is never closed. -/
theorem tokens_layout_dashes :
    let a := ascii "a/-- 'b' --"
    let z := ascii "-1*/"
    let text := ascii "1--2-/**/-/ *'x''y'\"``\" c'\\''/* 'd"
    a.ending = .plain ∧ Bytes.tokens (onNewLine a z) = a.tokens ++ z.tokens ∧
      text.ending = .block ∧
      printed text.tokens = ascii "1 - - 2 - - / * 'x''y' \"``\" c '\\''" ∧
      Bytes.tokens (printed text.tokens) = text.tokens := by
  intro a z text
  refine ⟨?_, ?_, ?_, ?_, ?_⟩
  · decide +kernel
  · exact tokens_layout.1 a z (by decide +kernel) (by decide +kernel)
  · decide +kernel
  · decide +kernel
  · exact tokens_layout.2 text (by decide +kernel)

end SqlTables
