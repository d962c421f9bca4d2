import SqlTables.Proofs.Token.Ahead

/-!
# `SqlTables.Proofs.Token.Suffix` — readers on a list of tokens

On a list of tokens every reader leaves a suffix of the list, and the span of a parenthesis is a prefix
in front of what follows it.

## Contents
- **`accept?_eq_some_iff`**: one token.
- **`closeSpan_append`**: a span, its end and what follows.
- **`ahead_tokens`**, with one lemma `…_suffix` for each reader.
-/

namespace SqlTables

open TokenSource

variable {p : Token → Bool} {ts rest : List Token}

/-! ## Single tokens -/

theorem next?_cons (t : Token) (ts : List Token) : next? (t :: ts) = some (t, ts) := rfl

theorem next?_eq_none_iff : next? ts = none ↔ ts = [] := by
  cases ts with
  | nil => exact ⟨fun _ => rfl, fun _ => rfl⟩
  | cons t ts =>
      constructor
      · intro h
        cases h
      · intro h
        cases h

theorem next?_eq_some_iff {t : Token} : next? ts = some (t, rest) ↔ ts = t :: rest := by
  cases ts with
  | nil =>
      constructor
      · intro h
        cases h
      · intro h
        cases h
  | cons u us =>
      constructor
      · rintro ⟨⟩
        rfl
      · rintro ⟨⟩
        rfl

/-- A token is accepted if it comes next and is of the kind. -/
theorem accept?_eq_some_iff : accept? p ts = some rest ↔ ∃ t, p t = true ∧ ts = t :: rest := by
  unfold accept?
  cases ts with
  | nil =>
      constructor
      · intro h
        cases h
      · rintro ⟨_, _, h⟩
        cases h
  | cons u us =>
      show (if p u = true then some us else none) = some rest ↔ _
      by_cases hu : p u = true
      · rw [if_pos hu]
        constructor
        · rintro ⟨⟩
          exact ⟨u, hu, rfl⟩
        · rintro ⟨t, _, ht⟩
          cases ht
          rfl
      · rw [if_neg hu]
        constructor
        · rintro ⟨⟩
        · rintro ⟨t, ht, he⟩
          cases he
          exact absurd ht hu

theorem accept?_cons {t : Token} (ht : p t = true) (ts : List Token) :
    accept? p (t :: ts) = some ts := accept?_eq_some_iff.mpr ⟨t, ht, rfl⟩

theorem acceptKeyword?_cons {q : Keyword → Bool} {t : Token} (ht : t.isKeyword q = true)
    (ts : List Token) : acceptKeyword? q (t :: ts) = some ts := accept?_cons ht ts

theorem accept?_suffix (h : accept? p ts = some rest) : rest <:+ ts := by
  obtain ⟨t, _, rfl⟩ := accept?_eq_some_iff.mp h
  exact List.suffix_cons t rest

/-- A symbol is accepted if it comes next. -/
theorem acceptSym?_eq_some_iff {c : Char} : acceptSym? c ts = some rest ↔ ts = .sym c :: rest := by
  rw [acceptSym?, accept?_eq_some_iff]
  constructor
  · rintro ⟨t, ht, rfl⟩
    rw [beq_iff_eq.mp ht]
  · rintro rfl
    exact ⟨_, beq_self_eq_true _, rfl⟩

/-! ## Spans -/

/-- A span and what follows it, with the end between them unless the parenthesis is never closed. -/
theorem closeSpan_append (depth : Nat) (ts : List Token) :
    ∃ close, ts = (closeSpan depth ts).1 ++ close ++ (closeSpan depth ts).2 := by
  fun_induction closeSpan depth ts with
  | case1 depth => exact ⟨[], rfl⟩
  | case2 depth rest ih =>
      obtain ⟨close, h⟩ := ih
      exact ⟨close, congrArg _ h⟩
  | case3 rest => exact ⟨[.sym ')'], rfl⟩
  | case4 rest _ outer ih =>
      obtain ⟨close, h⟩ := ih
      exact ⟨close, congrArg _ h⟩
  | case5 depth t rest ho hc ih =>
      obtain ⟨close, h⟩ := ih
      exact ⟨close, congrArg (t :: ·) h⟩

/-- What follows a span is an end of the tokens. -/
theorem afterSpan_suffix (ts : List Token) : (enclosed ts).2 <:+ ts := by
  obtain ⟨close, h⟩ := closeSpan_append 0 ts
  exact ⟨(closeSpan 0 ts).1 ++ close, h.symm⟩

/-! ## Readers -/

/-- Readers leave an end of what was in front of them. -/
theorem ahead_tokens : Ahead (fun ts rest : List Token => rest <:+ ts) where
  refl := List.suffix_refl
  trans hab hbc := hbc.trans hab
  next h := by
    rw [next?_eq_some_iff.mp h]
    exact List.suffix_cons _ _
  behind := afterSpan_suffix

theorem advance_suffix (ts : List Token) : advance ts <:+ ts := advance_ahead ahead_tokens ts

theorem skipKeywords_suffix (q : Keyword → Bool) (ts : List Token) : skipKeywords q ts <:+ ts :=
  skipKeywords_ahead ahead_tokens q ts

theorem skipSpan_suffix (ts : List Token) : skipSpan ts <:+ ts := skipSpan_ahead ahead_tokens ts

theorem dottedPart?_suffix {part : Token} (h : dottedPart? ts = some (part, rest)) : rest <:+ ts :=
  (dottedPart?_ahead ahead_tokens h :)

theorem skipName_suffix (ts : List Token) : skipName ts <:+ ts := skipName_ahead ahead_tokens ts

/-! ## What may follow a table -/

/-- Behind `AS` one name is passed. -/
theorem skipAlias_as {t : Token} (ht : t.keyword? = some .AS) (ts : List Token) :
    skipAlias (t :: ts) = skip isAlias ts := by
  rw [skipAlias, next?_cons]
  simp only [ht]

/-- A keyword that is not `AS` is no alias. -/
theorem skipAlias_keyword {t : Token} {k : Keyword} (ht : t.keyword? = some k) (hk : k ≠ .AS)
    (ts : List Token) : skipAlias (t :: ts) = t :: ts := by
  rw [skipAlias, next?_cons]
  simp only
  split
  · next he => exact absurd (Option.some.inj (ht.symm.trans he)) hk
  · rfl
  · next he => cases ht.symm.trans he

theorem skipAlias_plain {t : Token} (ht : t.keyword? = none) (ts : List Token) :
    skipAlias (t :: ts) = if t.isIdentifier then ts else t :: ts := by
  rw [skipAlias, next?_cons]
  simp only [ht]

theorem skipAlias_suffix (ts : List Token) : skipAlias ts <:+ ts := skipAlias_ahead ahead_tokens ts

theorem skipPartition_suffix (ts : List Token) : skipPartition ts <:+ ts :=
  skipPartition_ahead ahead_tokens ts

theorem skipHintPurpose_suffix (ts : List Token) : skipHintPurpose ts <:+ ts :=
  skipHintPurpose_ahead ahead_tokens ts

theorem indexHint?_suffix (h : indexHint? ts = some rest) : rest <:+ ts :=
  (indexHint?_ahead ahead_tokens h :)

theorem skipIndexHints_suffix (ts : List Token) : skipIndexHints ts <:+ ts :=
  skipIndexHints_ahead ahead_tokens ts

theorem nextTable?_suffix (h : nextTable? ts = some rest) : rest <:+ ts :=
  (nextTable?_ahead ahead_tokens h :)

/-! ## Clauses and options -/

theorem openBody_suffix {inside : List Token} (h : openBody ts = .ok inside) : inside <:+ ts :=
  (openBody_ahead ahead_tokens h :)

/-- Where a body is missing, what is left is an end of the tokens. -/
theorem openBody_error_suffix {stop : List Token} (h : openBody ts = .error stop) :
    stop <:+ ts :=
  (openBody_error_ahead ahead_tokens h :)

theorem skipHosts_suffix (ts : List Token) : skipHosts ts <:+ ts := skipHosts_ahead ahead_tokens ts

theorem skipOptionValue_suffix (ts : List Token) : skipOptionValue ts <:+ ts :=
  skipOptionValue_ahead ahead_tokens ts

theorem ddlObject_suffix (kindKnown : Bool) (ts : List Token) :
    (ddlObject kindKnown ts).2 <:+ ts :=
  ddlObject_ahead ahead_tokens kindKnown ts

end SqlTables
