import SqlTables.Proofs.Token.Content
import SqlTables.Proofs.Token.Gaps
import SqlTables.Proofs.Token.Spans

/-!
# `SqlTables.Proofs.Token.Lexeme` — how tokens are written

A word is the longest row of its bytes, a quoted text stands between its delimiters, and every other token is
a byte of its own. In front of the next token there is a gap, and it ends where neither a separator nor a
comment starts.

## Contents
- **`Lexeme`**: the bytes of a token, in front of what follows it.
- **`nextToken?_eq_some_iff`** and **`nextToken?_eq_none_iff`**: the next token, or none.
-/

namespace SqlTables

variable {bs gap lexeme rest tail : Bytes} {b : UInt8} {t : Token}

/-- How a token is written in front of what follows it. A delimiter that closes is missing only at the end of
    the text. -/
inductive Lexeme : Token → Bytes → Bytes → Prop where
  | word {text rest : Bytes} :
      text ≠ [] → (∀ b ∈ text, isWordByte b = true) →
        (∀ b, rest.head? = some b → isWordByte b = false) → Lexeme (.word text) text rest
  | quoted {q : Quote} {content rest : Bytes} :
      q.Content content → rest.head? ≠ some q.byte →
        Lexeme (.quoted q content) (q.byte :: (content ++ [q.byte])) rest
  | openQuoted {q : Quote} {content : Bytes} :
      q.Unclosed content → Lexeme (.quoted q content) (q.byte :: content) []
  | punct {b : UInt8} (rest : Bytes) :
      isSeparator b = false → isWordByte b = false → Quote.ofByte? b = none → b ≠ '#'.toUInt8 →
        Lexeme (.punct b) [b] rest

theorem lexeme_ne_nil (h : Lexeme t lexeme rest) : lexeme ≠ [] := by
  cases h with
  | word hne => exact hne
  | quoted => exact List.cons_ne_nil _ _
  | openQuoted => exact List.cons_ne_nil _ _
  | punct => exact List.cons_ne_nil _ _

/-! ## Reading a lexeme -/

theorem nextToken?_quoted {q : Quote} (h : skipGap bs = q.byte :: tail) :
    bs.nextToken? = some (.quoted q (q.split tail).1, (q.split tail).2) := by
  unfold Bytes.nextToken?
  simp only [h, Quote.ofByte?_byte]

theorem nextToken?_word (h : skipGap bs = b :: tail) (hb : isWordByte b = true) :
    bs.nextToken? = some (.word (b :: tail.takeWhile isWordByte), tail.dropWhile isWordByte) := by
  unfold Bytes.nextToken?
  simp only [h, ofByte?_of_isWordByte hb, hb, if_true]

theorem nextToken?_punct (h : skipGap bs = b :: tail) (hq : Quote.ofByte? b = none)
    (hb : isWordByte b = false) : bs.nextToken? = some (.punct b, tail) := by
  unfold Bytes.nextToken?
  simp only [h, hq, hb, Bool.false_eq_true, if_false]

theorem takeWhile_of_head {p : UInt8 → Bool} (h : ∀ b, rest.head? = some b → p b = false) :
    rest.takeWhile p = [] ∧ rest.dropWhile p = rest := by
  cases rest with
  | nil => exact ⟨rfl, rfl⟩
  | cons b tail => simp [h b rfl]

/-- Behind a gap a lexeme is read as its token. -/
theorem nextToken?_lexeme (hgap : skipGap bs = lexeme ++ rest) (h : Lexeme t lexeme rest) :
    bs.nextToken? = some (t, rest) := by
  cases h with
  | @word text rest hne hword hrest =>
      obtain ⟨b, tail, rfl⟩ := List.exists_cons_of_ne_nil hne
      obtain ⟨hb, htail⟩ := List.forall_mem_cons.mp hword
      obtain ⟨htake, hdrop⟩ := takeWhile_of_head hrest
      rw [List.cons_append] at hgap
      rw [nextToken?_word hgap hb, List.takeWhile_append_of_pos htail,
        List.dropWhile_append_of_pos htail, htake, hdrop, List.append_nil]
  | @quoted q content rest hc hrest =>
      have hsplit : q.byte :: (content ++ [q.byte]) ++ rest =
          q.byte :: (content ++ q.byte :: rest) := by
        simp
      rw [nextToken?_quoted (hgap.trans hsplit), split_content hc hrest]
  | openQuoted hopen =>
      rw [List.append_nil] at hgap
      rw [nextToken?_quoted hgap, split_unclosed hopen]
  | punct rest _ hb hq _ => exact nextToken?_punct hgap hq hb

/-- The token that is read is written where the gap ends. -/
theorem exists_lexeme (h : bs.nextToken? = some (t, rest)) (hstart : Significant (skipGap bs)) :
    ∃ lexeme, skipGap bs = lexeme ++ rest ∧ Lexeme t lexeme rest := by
  cases hgap : skipGap bs with
  | nil =>
      rw [nextToken?_of_skipGap_nil hgap] at h
      cases h
  | cons b tail =>
      rw [hgap] at hstart
      cases hq : Quote.ofByte? b with
      | some q =>
          obtain rfl := Quote.byte_of_ofByte? hq
          rw [nextToken?_quoted hgap] at h
          rcases content_or_unclosed q tail with ⟨content, more, rfl, hc, hmore⟩ | hopen
          · rw [split_content hc hmore] at h
            cases h
            refine ⟨q.byte :: (content ++ [q.byte]), ?_, .quoted hc hmore⟩
            simp
          · rw [split_unclosed hopen] at h
            cases h
            exact ⟨q.byte :: tail, (List.append_nil _).symm, .openQuoted hopen⟩
      | none =>
          by_cases hb : isWordByte b = true
          · rw [nextToken?_word hgap hb] at h
            cases h
            refine ⟨b :: tail.takeWhile isWordByte, ?_, .word (List.cons_ne_nil _ _) ?_ ?_⟩
            · rw [List.cons_append, List.takeWhile_append_dropWhile]
            · rw [List.forall_mem_cons]
              exact ⟨hb, fun c hc => List.mem_takeWhile_imp hc⟩
            · intro c hc
              have hhead := List.head?_dropWhile_not isWordByte tail
              rw [hc] at hhead
              exact hhead
          · rw [Bool.not_eq_true] at hb
            rw [nextToken?_punct hgap hq hb] at h
            cases h
            have hash : b ≠ '#'.toUInt8 := by
              rintro rfl
              obtain ⟨comment, hsplit, hcomment⟩ :=
                afterComment?_eq_some_iff.mp (afterComment?_lineMark (.hash rest))
              exact hstart.no_comment comment _ hsplit hcomment
            exact ⟨[b], rfl, .punct rest (hstart.no_separator b rfl) hb hq hash⟩

/-! ## The next token -/

/-- No gap goes on behind the gap that is passed. -/
theorem significant_skipGap (bs : Bytes) : Significant (skipGap bs) := by
  obtain ⟨gap, -, -, h⟩ := skipGap_eq_iff.mp (rfl : skipGap bs = skipGap bs)
  exact h

/-- The next token of a text is read from its lexeme, and in front of that stands nothing but a gap. -/
theorem nextToken?_eq_some_iff :
    bs.nextToken? = some (t, rest) ↔
      ∃ gap lexeme, bs = gap ++ (lexeme ++ rest) ∧ Gap gap (lexeme ++ rest) ∧
        Significant (lexeme ++ rest) ∧ Lexeme t lexeme rest := by
  constructor
  · intro h
    obtain ⟨lexeme, hgap, hlexeme⟩ := exists_lexeme h (significant_skipGap bs)
    obtain ⟨gap, hsplit, hrow, hend⟩ := skipGap_eq_iff.mp hgap
    exact ⟨gap, lexeme, hsplit, hrow, hend, hlexeme⟩
  · rintro ⟨gap, lexeme, hsplit, hrow, hend, hlexeme⟩
    exact nextToken?_lexeme (skipGap_eq_iff.mpr ⟨gap, hsplit, hrow, hend⟩) hlexeme

theorem significant_nil : Significant [] :=
  significant_iff.mpr ⟨rfl, by decide⟩

/-- There is no token where nothing is left but a gap. -/
theorem nextToken?_eq_none_iff : bs.nextToken? = none ↔ Gap bs [] := by
  constructor
  · intro h
    obtain ⟨gap, hsplit, hrow, -⟩ := skipGap_eq_iff.mp (skipGap_of_nextToken?_none h)
    rw [List.append_nil] at hsplit
    subst hsplit
    exact hrow
  · intro h
    have hgap := skipGap_gap h significant_nil
    rw [List.append_nil] at hgap
    exact nextToken?_of_skipGap_nil hgap

end SqlTables
