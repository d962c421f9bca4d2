import SqlTables.Token.Quoted

/-!
# `SqlTables.Proofs.Token.Content` — what stands between two delimiters

The content of a quoted text is made of plain bytes, of doubled delimiters and, where a backslash escapes, of
backslashes with the byte behind each of them. The closing delimiter is the first byte that is none of these,
and a text that holds nothing else is never closed.

## Contents
- **`Quote.Passes`**: parts that the search for the end passes as a whole.
- **`Quote.Content`** and **`Quote.Unclosed`**: what a quoted text can hold, and a text without an end.
- **`split_content`** and **`split_unclosed`**: where both are cut.
- **`content_or_unclosed`**: every text is one of the two.
-/

namespace SqlTables

variable {q : Quote} {b c : UInt8} {content part rest text : Bytes}

/-! ## Marks -/

/-- The marks of a quoted text are its delimiter and, where it escapes, the backslash. -/
theorem isMark_iff : q.isMark b = true ↔ b = q.byte ∨ q.escapes = true ∧ b = '\\'.toUInt8 := by
  simp [Quote.isMark]

theorem isMark_byte (q : Quote) : q.isMark q.byte = true := by simp [Quote.isMark]

theorem isMark_backslash (h : q.escapes = true) : q.isMark '\\'.toUInt8 = true := by
  simp [Quote.isMark, h]

theorem byte_ne_backslash (q : Quote) : q.byte ≠ '\\'.toUInt8 := by cases q <;> decide

/-! ## The search for the end -/

theorem closing?_nil (q : Quote) : q.closing? [] = none := by simp [Quote.closing?_eq]

/-- A delimiter closes where no second one follows. -/
theorem closing?_end (h : rest.head? ≠ some q.byte) : q.closing? (q.byte :: rest) = some 0 := by
  rw [Quote.closing?_eq, List.findIdx?_cons, isMark_byte, if_pos rfl]
  simp only [List.drop_zero]
  rw [if_neg (not_or.mpr ⟨byte_ne_backslash q, h⟩)]

/-- At the end of the text a backslash has nothing to escape. -/
theorem closing?_backslash (h : q.escapes = true) : q.closing? ['\\'.toUInt8] = none := by
  rw [Quote.closing?_eq, List.findIdx?_cons, isMark_backslash h, if_pos rfl]
  simp [closing?_nil]

/-- Whether the search passes a part as a whole, whatever follows it. -/
def Quote.Passes (q : Quote) (part : Bytes) : Prop :=
  ∀ rest, q.closing? (part ++ rest) = (q.closing? rest).map (part.length + ·)

theorem passes_nil (q : Quote) : q.Passes [] := by
  intro rest
  simp

theorem passes_append {other : Bytes} (h : q.Passes part) (h' : q.Passes other) :
    q.Passes (part ++ other) := by
  intro rest
  rw [List.append_assoc, h, h', Option.map_map, List.length_append]
  congr 1
  funext n
  exact (Nat.add_assoc _ _ _).symm

/-- A byte that is no mark passes. -/
theorem passes_plain (h : q.isMark b = false) : q.Passes [b] := by
  intro rest
  rw [List.singleton_append, Quote.closing?_eq, Quote.closing?_eq q rest, List.findIdx?_cons, h]
  cases rest.findIdx? q.isMark with
  | none => rfl
  | some n =>
      simp only [Bool.false_eq_true, if_false, Option.map_some, List.drop_succ_cons]
      cases rest.drop n with
      | nil => rfl
      | cons d more =>
          simp only [List.length_singleton]
          split
          · rw [Option.map_map]
            congr 1
            funext k
            simp only [Function.comp_apply]
            omega
          · simp only [Option.map_some, Nat.add_comm]

/-- Two delimiters, or a backslash and the byte that it escapes. -/
theorem passes_pair (hb : q.isMark b = true) (h : b = '\\'.toUInt8 ∨ c = q.byte) :
    q.Passes [b, c] := by
  intro rest
  have hpair : b = '\\'.toUInt8 ∨ (c :: rest).head? = some q.byte := h.imp_right (congrArg some)
  rw [List.cons_append, List.singleton_append, Quote.closing?_eq, List.findIdx?_cons, hb, if_pos rfl]
  simp only [List.drop_zero]
  rw [if_pos hpair]
  simp

/-! ## Contents -/

namespace Quote

/-- What a quoted text can hold. -/
inductive Content (q : Quote) : Bytes → Prop where
  | nil : Content q []
  | plain {b : UInt8} {rest : Bytes} : q.isMark b = false → Content q rest → Content q (b :: rest)
  | doubled {rest : Bytes} : Content q rest → Content q (q.byte :: q.byte :: rest)
  | escaped {b : UInt8} {rest : Bytes} :
      q.escapes = true → Content q rest → Content q ('\\'.toUInt8 :: b :: rest)

/-- A text that is never closed. Its last byte may be a backslash with nothing behind it. -/
inductive Unclosed (q : Quote) : Bytes → Prop where
  | content {text : Bytes} : q.Content text → Unclosed q text
  | backslash {text : Bytes} :
      q.escapes = true → q.Content text → Unclosed q (text ++ ['\\'.toUInt8])

end Quote

/-- The search for the closing delimiter runs through the whole content. The induction is on its parts. -/
theorem passes_content (h : q.Content content) : q.Passes content := by
  induction h with
  | nil => exact passes_nil q
  | plain hb _ ih => exact passes_append (passes_plain hb) ih
  | doubled _ ih => exact passes_append (passes_pair (isMark_byte q) (Or.inr rfl)) ih
  | escaped he _ ih => exact passes_append (passes_pair (isMark_backslash he) (Or.inl rfl)) ih

/-- The delimiter behind a content closes it, and none of those in it does. -/
theorem split_content (h : q.Content content) (hrest : rest.head? ≠ some q.byte) :
    q.split (content ++ q.byte :: rest) = (content, rest) := by
  rw [Quote.split, passes_content h, closing?_end hrest]
  simp

/-- In a quoted text that is never closed no delimiter closes. -/
theorem closing?_unclosed (h : q.Unclosed text) : q.closing? text = none := by
  cases h with
  | content hc =>
      have hall := passes_content hc []
      rwa [List.append_nil, closing?_nil] at hall
  | backslash he hc => rw [passes_content hc, closing?_backslash he, Option.map_none]

theorem split_unclosed (h : q.Unclosed text) : q.split text = (text, []) := by
  rw [Quote.split, closing?_unclosed h]

/-! ## Every text -/

/-- The content of a quoted text is the front of what follows the delimiter. -/
theorem split_prefix_text (q : Quote) (text : Bytes) : (q.split text).1 <+: text := by
  unfold Quote.split
  split
  · exact List.take_prefix _ _
  · exact List.prefix_refl text

/-- What stands behind an opening delimiter: a content with the delimiter that closes it, or nothing that
    closes. -/
def Quote.Quotes (q : Quote) (text : Bytes) : Prop :=
  (∃ content rest, text = content ++ q.byte :: rest ∧ q.Content content ∧
      rest.head? ≠ some q.byte) ∨
    q.Unclosed text

/-- What may stand in front of any content may stand in front of a quoted text, whether it is closed or
    not. -/
theorem quotes_append (part : Bytes) (hpart : ∀ content, q.Content content → q.Content (part ++ content))
    (h : q.Quotes text) : q.Quotes (part ++ text) := by
  rcases h with ⟨content, rest, rfl, hc, hrest⟩ | hopen
  · left
    refine ⟨part ++ content, rest, ?_, hpart content hc, hrest⟩
    rw [List.append_assoc]
  · right
    cases hopen with
    | content hc => exact .content (hpart _ hc)
    | backslash he hc =>
        rw [← List.append_assoc]
        exact .backslash he (hpart _ hc)

/-- Every text behind a delimiter is a content with its closing delimiter, or is never closed. -/
theorem content_or_unclosed (q : Quote) (text : Bytes) : q.Quotes text := by
  -- A delimiter and a backslash are judged by the byte behind them, so one byte or two are passed at once.
  match text with
  | [] => exact Or.inr (.content .nil)
  | b :: rest =>
      by_cases hmark : q.isMark b = true
      · rcases isMark_iff.mp hmark with rfl | ⟨he, rfl⟩
        · by_cases hrest : rest.head? = some q.byte
          · obtain ⟨more, rfl⟩ := List.head?_eq_some_iff.mp hrest
            apply quotes_append [q.byte, q.byte]
            · intro content hc
              exact .doubled hc
            · exact content_or_unclosed q more
          · exact Or.inl ⟨[], rest, rfl, .nil, hrest⟩
        · cases rest with
          | nil => exact Or.inr (.backslash he .nil)
          | cons c more =>
              apply quotes_append ['\\'.toUInt8, c]
              · intro content hc
                exact .escaped he hc
              · exact content_or_unclosed q more
      · rw [Bool.not_eq_true] at hmark
        apply quotes_append [b]
        · intro content hc
          exact .plain hmark hc
        · exact content_or_unclosed q rest
termination_by text.length

end SqlTables
