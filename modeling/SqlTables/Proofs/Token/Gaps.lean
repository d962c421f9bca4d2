import Mathlib.Data.List.DropRight
import SqlTables.Proofs.Token.Prefix

/-!
# `SqlTables.Proofs.Token.Gaps` — gaps are made of separators and comments

Where a comment ends depends on what stands behind it only as far as a `--` wants a separator there and an
open comment wants nothing at all. A gap is any row of separators and comments, and it goes on until neither
of them starts.

## Contents
- **`LineMark`** and **`Comment`**: comments, in front of what follows them.
- **The first line end** and **the first `*/`**: where a text is cut at them.
- **`afterComment?_eq_some_iff`**: a comment is passed as a whole.
- **`Gap`** and **`Significant`**: gaps, and where no gap goes on.
- **`skipGap_eq_iff`**: a gap is passed as a whole.
-/

namespace SqlTables

/-! ## Comments -/

/-- What opens a comment to the end of the line, in front of what follows. -/
inductive LineMark : Bytes → Bytes → Prop where
  | hash (rest : Bytes) : LineMark (ascii "#") rest
  | dashes {rest : Bytes} : rest.head?.all isSeparator = true → LineMark (ascii "--") rest

/-- A comment, in front of what follows it. It goes through the first line end, or through the first `*/`
    behind its `/*`; a comment that has no end is the last thing in the text. -/
inductive Comment : Bytes → Bytes → Prop where
  | line {mark body rest : Bytes} :
      LineMark mark (body ++ '\n'.toUInt8 :: rest) → '\n'.toUInt8 ∉ body →
        Comment (mark ++ (body ++ ascii "\n")) rest
  | openLine {mark body : Bytes} :
      LineMark mark body → '\n'.toUInt8 ∉ body → Comment (mark ++ body) []
  | block {body : Bytes} (rest : Bytes) :
      ¬ ascii "*/" <:+: body ++ ascii "*" → Comment (ascii "/*" ++ (body ++ ascii "*/")) rest
  | openBlock {body : Bytes} : ¬ ascii "*/" <:+: body → Comment (ascii "/*" ++ body) []

variable {bs body mark rest gap : Bytes} {b : UInt8}

/-! ## The first line end -/

/-- A text is a single line, or it is cut at its first line end. -/
theorem newline_cases (bs : Bytes) :
    '\n'.toUInt8 ∉ bs ∨ ∃ body rest, bs = body ++ '\n'.toUInt8 :: rest ∧ '\n'.toUInt8 ∉ body := by
  by_cases h : '\n'.toUInt8 ∈ bs
  · obtain ⟨body, rest, hsplit, hbody⟩ := List.eq_append_cons_of_mem h
    exact Or.inr ⟨body, rest, hsplit, hbody⟩
  · exact Or.inl h

theorem findIdx?_newline (h : '\n'.toUInt8 ∉ body) : body.findIdx? (· == '\n'.toUInt8) = none := by
  rw [List.findIdx?_eq_none_iff]
  intro b hb
  rw [beq_eq_false_iff_ne]
  rintro rfl
  exact h hb

/-- Nothing is left behind a line that does not end. -/
theorem afterLine_of_notMem (h : '\n'.toUInt8 ∉ body) : afterLine body = [] := by
  unfold afterLine
  rw [findIdx?_newline h]

/-- Behind the first line end the text goes on. -/
theorem afterLine_append_newline (h : '\n'.toUInt8 ∉ body) (rest : Bytes) :
    afterLine (body ++ '\n'.toUInt8 :: rest) = rest := by
  unfold afterLine
  simp [List.findIdx?_append, findIdx?_newline h, List.findIdx?_cons]

/-! ## The first `*/` -/

/-- Within a text and in front of its `*/` the same marks start as if only its first byte followed. -/
theorem prefix_append_mark (b : UInt8) (body rest : Bytes) :
    ascii "*/" <+: b :: (body ++ (ascii "*/" ++ rest)) ↔ ascii "*/" <+: b :: (body ++ ascii "*") := by
  have hsplit : b :: (body ++ (ascii "*/" ++ rest)) =
      b :: (body ++ ascii "*") ++ (ascii "/" ++ rest) := by
    simp [ascii]
  have hlength : (ascii "*/").length ≤ (b :: (body ++ ascii "*")).length := by
    simp [ascii]
  rw [hsplit, ← List.isPrefixOf_iff_prefix, isPrefixOf_append hlength, List.isPrefixOf_iff_prefix]

/-- A text has no `*/`, or it is cut at its first one. No other one starts in front of it, not even one whose
    slash is that of the first. -/
theorem blockEnd_cases (bs : Bytes) :
    ¬ ascii "*/" <:+: bs ∨
      ∃ body rest, bs = body ++ (ascii "*/" ++ rest) ∧ ¬ ascii "*/" <:+: body ++ ascii "*" := by
  induction bs with
  | nil =>
      left
      decide
  | cons b tail ih =>
      by_cases hp : ascii "*/" <+: b :: tail
      · obtain ⟨rest, hrest⟩ := hp
        exact Or.inr ⟨[], rest, hrest.symm, by decide⟩
      · rcases ih with hno | ⟨body, rest, rfl, hbody⟩
        · left
          rw [List.infix_cons_iff]
          exact not_or.mpr ⟨hp, hno⟩
        · right
          refine ⟨b :: body, rest, rfl, ?_⟩
          rw [List.cons_append, List.infix_cons_iff]
          exact not_or.mpr ⟨mt (prefix_append_mark b body rest).mpr hp, hbody⟩

theorem offset?_eq_none {pat : Bytes} (h : ¬ pat <:+: body) : Bytes.offset? pat body = none := by
  induction body with
  | nil =>
      cases pat with
      | nil => exact absurd List.nil_infix h
      | cons c pat => rfl
  | cons b body ih =>
      obtain ⟨hp, hbody⟩ := not_or.mp (mt List.infix_cons_iff.mpr h)
      rw [Bytes.offset?, if_neg (mt List.isPrefixOf_iff_prefix.mp hp), ih hbody, Option.map_none]

/-- The first `*/` is found where the body of the comment ends. -/
theorem offset?_append_mark (h : ¬ ascii "*/" <:+: body ++ ascii "*") (rest : Bytes) :
    Bytes.offset? (ascii "*/") (body ++ (ascii "*/" ++ rest)) = some body.length := by
  induction body with
  | nil => rfl
  | cons b body ih =>
      rw [List.cons_append, List.infix_cons_iff] at h
      obtain ⟨hp, hbody⟩ := not_or.mp h
      -- Whether a mark starts here does not depend on what follows its first byte at the end.
      rw [← prefix_append_mark b body rest, ← List.isPrefixOf_iff_prefix] at hp
      rw [List.cons_append, Bytes.offset?, if_neg hp, ih hbody]
      rfl

/-- Nothing is left behind a comment that is never closed. -/
theorem afterBlock_of_no_mark (h : ¬ ascii "*/" <:+: body) : afterBlock body = [] := by
  unfold afterBlock
  rw [offset?_eq_none h]

/-- Behind the first `*/` the text goes on. -/
theorem afterBlock_append_mark (h : ¬ ascii "*/" <:+: body ++ ascii "*") (rest : Bytes) :
    afterBlock (body ++ (ascii "*/" ++ rest)) = rest := by
  unfold afterBlock
  rw [offset?_append_mark h]
  simp [ascii]

/-! ## A comment as a whole -/

/-- A comment to the end of the line starts where one of its marks does. -/
theorem startsLineComment_iff_append :
    startsLineComment bs = true ↔ ∃ mark rest, bs = mark ++ rest ∧ LineMark mark rest := by
  constructor
  · intro h
    cases bs with
    | nil => exact absurd h (by decide)
    | cons b tail =>
        rcases (startsLineComment_cons b tail).mp h with rfl | ⟨rfl, rest, rfl, hsep⟩
        · exact ⟨ascii "#", tail, rfl, .hash tail⟩
        · exact ⟨ascii "--", rest, rfl, .dashes hsep⟩
  · rintro ⟨mark, rest, rfl, hmark⟩
    cases hmark with
    | hash => exact (startsLineComment_cons _ _).mpr (Or.inl rfl)
    | dashes hsep => exact (startsLineComment_cons _ _).mpr (Or.inr ⟨rfl, rest, rfl, hsep⟩)

/-- A mark has no line end, so the first one of the comment is that of its body. -/
theorem newline_notMem_append (h : LineMark mark rest) (hbody : '\n'.toUInt8 ∉ body) :
    '\n'.toUInt8 ∉ mark ++ body := by
  have hmark : '\n'.toUInt8 ∉ mark := by
    cases h with
    | hash => decide
    | dashes => decide
  rw [List.mem_append]
  exact not_or.mpr ⟨hmark, hbody⟩

/-- Behind its mark a comment goes to the end of the line. -/
theorem afterComment?_lineMark (h : LineMark mark rest) :
    afterComment? (mark ++ rest) = some (afterLine (mark ++ rest)) :=
  if_pos (startsLineComment_iff_append.mpr ⟨mark, rest, rfl, h⟩)

/-- A comment is passed as a whole. -/
theorem afterComment?_comment {comment : Bytes} (h : Comment comment rest) :
    afterComment? (comment ++ rest) = some rest := by
  cases h with
  | @line mark body rest hmark hbody =>
      have hsplit : mark ++ (body ++ ascii "\n") ++ rest = mark ++ (body ++ '\n'.toUInt8 :: rest) := by
        simp [ascii]
      rw [hsplit, afterComment?_lineMark hmark, ← List.append_assoc,
        afterLine_append_newline (newline_notMem_append hmark hbody)]
  | openLine hmark hbody =>
      rw [List.append_nil, afterComment?_lineMark hmark,
        afterLine_of_notMem (newline_notMem_append hmark hbody)]
  | block rest hbody =>
      rw [List.append_assoc, List.append_assoc, afterComment?_blockMark, afterBlock_append_mark hbody]
  | openBlock hbody => rw [List.append_nil, afterComment?_blockMark, afterBlock_of_no_mark hbody]

/-- What is passed as a comment is one, and every comment is passed. -/
theorem afterComment?_eq_some_iff :
    afterComment? bs = some rest ↔ ∃ comment, bs = comment ++ rest ∧ Comment comment rest := by
  constructor
  · intro h
    by_cases hl : startsLineComment bs = true
    · obtain ⟨mark, tail, rfl, hmark⟩ := startsLineComment_iff_append.mp hl
      rw [afterComment?_lineMark hmark, Option.some.injEq] at h
      subst h
      -- The comment is closed by the first line end, or it is open and nothing is left behind it.
      rcases newline_cases tail with hno | ⟨body, rest, rfl, hbody⟩
      · rw [afterLine_of_notMem (newline_notMem_append hmark hno)]
        exact ⟨mark ++ tail, (List.append_nil _).symm, .openLine hmark hno⟩
      · rw [← List.append_assoc, afterLine_append_newline (newline_notMem_append hmark hbody)]
        refine ⟨mark ++ (body ++ ascii "\n"), ?_, .line hmark hbody⟩
        simp [ascii]
    · by_cases hb : startsBlockComment bs = true
      · obtain ⟨tail, rfl⟩ := startsBlockComment_iff.mp hb
        have htail : some (afterBlock tail) = some rest := (afterComment?_blockMark tail).symm.trans h
        rw [Option.some.injEq] at htail
        subst htail
        rcases blockEnd_cases tail with hno | ⟨body, rest, rfl, hbody⟩
        · rw [afterBlock_of_no_mark hno]
          exact ⟨ascii "/*" ++ tail, (List.append_nil _).symm, .openBlock hno⟩
        · rw [afterBlock_append_mark hbody]
          refine ⟨ascii "/*" ++ (body ++ ascii "*/"), ?_, .block rest hbody⟩
          simp [ascii]
      · unfold afterComment? at h
        rw [if_neg hl, if_neg hb] at h
        cases h
  · rintro ⟨comment, rfl, hcomment⟩
    exact afterComment?_comment hcomment

/-! ## Gaps -/

/-- A row of separators and comments, in front of what follows it. -/
inductive Gap : Bytes → Bytes → Prop where
  | nil (rest : Bytes) : Gap [] rest
  | separator {b : UInt8} {gap rest : Bytes} :
      isSeparator b = true → Gap gap rest → Gap (b :: gap) rest
  | comment {comment gap rest : Bytes} :
      Comment comment (gap ++ rest) → Gap gap rest → Gap (comment ++ gap) rest

/-- No gap goes on here: neither a separator nor a comment starts. -/
structure Significant (bs : Bytes) : Prop where
  no_separator : ∀ b, bs.head? = some b → isSeparator b = false
  no_comment : ∀ comment rest, bs = comment ++ rest → ¬ Comment comment rest

/-- A gap may start with any number of separators. -/
theorem gap_separators {separators : Bytes} (hs : ∀ b ∈ separators, isSeparator b = true)
    (h : Gap gap rest) : Gap (separators ++ gap) rest := by
  induction separators with
  | nil => exact h
  | cons b separators ih =>
      obtain ⟨hb, hseparators⟩ := List.forall_mem_cons.mp hs
      exact .separator hb (ih hseparators)

/-- No comment starts with a separator. -/
theorem isSeparator_of_startsComment (h : startsComment (b :: rest) = true) :
    isSeparator b = false := by
  rcases (Bool.or_eq_true _ _).mp h with hl | hb
  · rcases (startsLineComment_cons b rest).mp hl with rfl | ⟨rfl, _⟩
    · decide
    · decide
  · obtain ⟨tail, ht⟩ := startsBlockComment_iff.mp hb
    rw [(List.cons.inj ht).1]
    decide

theorem skipGap_separator (hb : isSeparator b = true) (rest : Bytes) :
    skipGap (b :: rest) = skipGap rest := by
  rw [skipGap_eq, skipGap_eq rest, List.dropWhile_cons_of_pos hb]

theorem skipGap_comment (h : afterComment? bs = some rest) : skipGap bs = skipGap rest := by
  cases bs with
  | nil => exact absurd (afterComment?_length h) (Nat.not_lt_zero _)
  | cons b tail =>
      have hstart : startsComment (b :: tail) = true := by
        rw [← afterComment?_isSome, h]
        rfl
      have hsep : ¬ isSeparator b = true := by simp [isSeparator_of_startsComment hstart]
      rw [skipGap_eq, List.dropWhile_cons_of_neg hsep, h]

/-- No gap goes on where the lexer finds neither a separator nor a comment. -/
theorem significant_iff : Significant bs ↔ bs.dropWhile isSeparator = bs ∧ afterComment? bs = none := by
  constructor
  · intro h
    constructor
    · cases bs with
      | nil => rfl
      | cons b tail => exact List.dropWhile_cons_of_neg (by simp [h.no_separator b rfl])
    · cases hc : afterComment? bs with
      | none => rfl
      | some rest =>
          obtain ⟨comment, hsplit, hcomment⟩ := afterComment?_eq_some_iff.mp hc
          exact absurd hcomment (h.no_comment comment rest hsplit)
  · rintro ⟨hsep, hcomment⟩
    constructor
    · intro b hb
      have hhead := List.head?_dropWhile_not isSeparator bs
      rw [hsep, hb] at hhead
      simpa using hhead
    · intro comment rest hsplit h
      rw [afterComment?_eq_some_iff.mpr ⟨comment, hsplit, h⟩] at hcomment
      cases hcomment

/-- A gap is passed up to where no gap goes on. The induction is on the row of its parts. -/
theorem skipGap_gap (h : Gap gap rest) (hrest : Significant rest) : skipGap (gap ++ rest) = rest := by
  induction h with
  | nil =>
      obtain ⟨hsep, hcomment⟩ := significant_iff.mp hrest
      rw [List.nil_append, skipGap_eq, hsep, hcomment]
  | separator hb _ ih => rw [List.cons_append, skipGap_separator hb, ih hrest]
  | comment hcomment _ ih =>
      rw [List.append_assoc, skipGap_comment (afterComment?_comment hcomment), ih hrest]

/-- A gap is passed as a whole, and nothing else is. -/
theorem skipGap_eq_iff :
    skipGap bs = rest ↔ ∃ gap, bs = gap ++ rest ∧ Gap gap rest ∧ Significant rest := by
  constructor
  · rintro rfl
    -- In front of a comment, and in front of the end of the gap, stand separators.
    have hseparators (bs : Bytes) : ∀ b ∈ bs.takeWhile isSeparator, isSeparator b = true :=
      fun b hb => List.mem_takeWhile_imp hb
    fun_induction skipGap bs with
    | case1 bs rest h ih =>
        obtain ⟨comment, hsplit, hcomment⟩ := afterComment?_eq_some_iff.mp h
        obtain ⟨gap, hgap, hrow, hend⟩ := ih
        refine ⟨bs.takeWhile isSeparator ++ (comment ++ gap), ?_, ?_, hend⟩
        · rw [List.append_assoc, List.append_assoc, ← hgap, ← hsplit, List.takeWhile_append_dropWhile]
        · rw [hgap] at hcomment
          exact gap_separators (hseparators bs) (.comment hcomment hrow)
    | case2 bs h =>
        refine ⟨bs.takeWhile isSeparator, List.takeWhile_append_dropWhile.symm, ?_, ?_⟩
        · have hgap := gap_separators (hseparators bs) (.nil (bs.dropWhile isSeparator))
          rwa [List.append_nil] at hgap
        · exact significant_iff.mpr ⟨List.dropWhile_idempotent _ _, h⟩
  · rintro ⟨gap, rfl, hgap, hend⟩
    exact skipGap_gap hgap hend

end SqlTables
