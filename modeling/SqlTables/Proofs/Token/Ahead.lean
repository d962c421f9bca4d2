import SqlTables.Extraction.Body

/-!
# `SqlTables.Proofs.Token.Ahead` — readers only go ahead

What a reader leaves is where it started, or lies ahead of it: every reader goes from token to token and from
the start of a span behind its end. So a relation that holds along single tokens and single spans holds along
every reader, whatever the source of the tokens is.

## Contents
- **`Ahead`**: such a relation.
- One lemma `…_ahead` for each reader.
-/

namespace SqlTables

open TokenSource

variable {σ : Type} [TokenSource σ]

/-- A relation between where a reader starts and what it leaves. It holds along a token and along a span, and
    from one reader to the next one. -/
structure Ahead (R : σ → σ → Prop) : Prop where
  refl (s : σ) : R s s
  trans {a b c : σ} : R a b → R b c → R a c
  next {s rest : σ} {t : Token} : next? s = some (t, rest) → R s rest
  behind (s : σ) : R s (enclosed s).2

variable {R : σ → σ → Prop} {p : Token → Bool} {s rest : σ}

/-! ## Tokens and spans -/

theorem accept?_ahead (hR : Ahead R) (h : accept? p s = some rest) : R s rest := by
  unfold accept? at h
  split at h
  · next t r hn =>
      split at h
      · cases h
        exact hR.next hn
      · cases h
  · cases h

theorem skip_ahead (hR : Ahead R) (p : Token → Bool) (s : σ) : R s (skip p s) := by
  unfold skip
  cases h : accept? p s with
  | none => exact hR.refl s
  | some rest => exact accept?_ahead hR h

theorem advance_ahead (hR : Ahead R) (s : σ) : R s (advance s) := skip_ahead hR _ s

/-- Any number of tokens is passed, each of which is accepted. -/
theorem skipWhile_ahead (hR : Ahead R) (p : Token → Bool) (s : σ) : R s (skipWhile p s) := by
  fun_induction skipWhile p s with
  | case1 s rest h ih => exact hR.trans (accept?_ahead hR h) ih
  | case2 s h => exact hR.refl s

theorem skipKeywords_ahead (hR : Ahead R) (q : Keyword → Bool) (s : σ) : R s (skipKeywords q s) :=
  skipWhile_ahead hR _ s

/-- Behind a parenthesis the source goes on behind its span. -/
theorem skipSpan_ahead (hR : Ahead R) (s : σ) : R s (skipSpan s) := by
  unfold skipSpan
  cases h : acceptSym? '(' s with
  | none => exact hR.refl s
  | some inside => exact hR.trans (accept?_ahead hR h) (hR.behind inside)

/-! ## Names -/

/-- A dot and an identifier are passed, one after the other. -/
theorem dottedPart?_ahead (hR : Ahead R) {part : Token} (h : dottedPart? s = some (part, rest)) :
    R s rest := by
  simp only [dottedPart?, Option.bind_eq_bind, Option.bind_eq_some_iff] at h
  obtain ⟨mid, hd, ⟨t, r⟩, hn, hi⟩ := h
  simp only at hi
  split at hi
  · cases hi
    exact hR.trans (accept?_ahead hR hd) (hR.next hn)
  · cases hi

theorem furtherParts_ahead (hR : Ahead R) (name : QualifiedName) (s : σ) :
    R s (furtherParts name s).2 := by
  fun_induction furtherParts name s with
  | case1 name s part rest h ih => exact hR.trans (dottedPart?_ahead hR h) ih
  | case2 name s h => exact hR.refl s

theorem qualifiedName?_ahead (hR : Ahead R) {name : QualifiedName}
    (h : qualifiedName? s = some (name, rest)) : R s rest := by
  unfold qualifiedName? at h
  split at h
  · next t r hn =>
      split at h
      · have hparts := furtherParts_ahead hR ⟨none, t⟩ r
        rw [Option.some.inj h] at hparts
        exact hR.trans (hR.next hn) hparts
      · cases h
  · cases h

theorem skipName_ahead (hR : Ahead R) (s : σ) : R s (skipName s) := by
  unfold skipName
  split
  · next h => exact qualifiedName?_ahead hR h
  · exact hR.refl s

variable {env : Env σ} {bound : List String} {found : Findings}

theorem tableName?_ahead (hR : Ahead R) (h : tableName? env bound s = some (found, rest)) :
    R s rest := by
  simp only [tableName?, Option.map_eq_some_iff] at h
  obtain ⟨⟨name, r⟩, hq, he⟩ := h
  cases he
  exact qualifiedName?_ahead hR hq

theorem tableName_ahead (hR : Ahead R) (env : Env σ) (bound : List String) (s : σ) :
    R s (tableName env bound s).2 := by
  unfold tableName
  cases h : tableName? env bound s with
  | none => exact hR.refl s
  | some found => exact tableName?_ahead hR h

/-! ## Lists of tables -/

/-- An alias is passed, with or without `AS`, and nothing where it is missing. -/
theorem skipAlias_ahead (hR : Ahead R) (s : σ) : R s (skipAlias s) := by
  unfold skipAlias
  split
  · next t rest hn =>
      have hrest := hR.next hn
      split
      · exact hR.trans hrest (skip_ahead hR _ rest)
      · exact hR.refl s
      · split
        · exact hrest
        · exact hR.refl s
  · exact hR.refl s

theorem skipPartition_ahead (hR : Ahead R) (s : σ) : R s (skipPartition s) := by
  unfold skipPartition
  split
  · next rest h => exact hR.trans (accept?_ahead hR h) (skipSpan_ahead hR rest)
  · exact hR.refl s

/-- What an index hint is for is passed, also where the words behind `FOR` are other ones. -/
theorem skipHintPurpose_ahead (hR : Ahead R) (s : σ) : R s (skipHintPurpose s) := by
  unfold skipHintPurpose
  split
  · next rest h =>
      have hrest := accept?_ahead hR h
      split
      · next last hl =>
          exact hR.trans (hR.trans hrest (accept?_ahead hR hl)) (advance_ahead hR last)
      · exact hR.trans hrest (advance_ahead hR rest)
  · exact hR.refl s

theorem indexHint?_ahead (hR : Ahead R) (h : indexHint? s = some rest) : R s rest := by
  simp only [indexHint?, Option.bind_eq_bind, Option.bind_eq_some_iff, Option.some.injEq] at h
  obtain ⟨a, ha, b, hb, rfl⟩ := h
  have hwords := hR.trans (accept?_ahead hR ha) (accept?_ahead hR hb)
  exact hR.trans hwords (hR.trans (skipHintPurpose_ahead hR b) (skipSpan_ahead hR _))

theorem skipIndexHints_ahead (hR : Ahead R) (s : σ) : R s (skipIndexHints s) := by
  fun_induction skipIndexHints s with
  | case1 s rest h ih => exact hR.trans (indexHint?_ahead hR h) ih
  | case2 s h => exact hR.refl s

theorem nextTable?_ahead (hR : Ahead R) (h : nextTable? s = some rest) : R s rest := by
  unfold nextTable? at h
  split at h
  · next r hc =>
      cases h
      exact accept?_ahead hR hc
  · exact hR.trans (skipKeywords_ahead hR _ s) (accept?_ahead hR h)

/-- An item of a list is passed: a parenthesis with its span, or the name of a table, and in both cases what
    stands behind it. -/
theorem tableItem?_ahead (hR : Ahead R) (h : tableItem? env bound s = some (found, rest)) :
    R s rest := by
  unfold tableItem? at h
  split at h
  · next inside hi =>
      cases h
      have hspan := hR.trans (accept?_ahead hR hi) (hR.behind inside)
      have halias := hR.trans hspan (skipAlias_ahead hR _)
      exact hR.trans (hR.trans halias (skipSpan_ahead hR _)) (skipIndexHints_ahead hR _)
  · split at h
    · next r hd =>
        cases h
        have halias := hR.trans (accept?_ahead hR hd) (skipAlias_ahead hR r)
        exact hR.trans halias (skipIndexHints_ahead hR _)
    · split at h
      · next f r ht =>
          cases h
          have hpartition := hR.trans (tableName?_ahead hR ht) (skipPartition_ahead hR r)
          exact hR.trans (hR.trans hpartition (skipAlias_ahead hR _)) (skipIndexHints_ahead hR _)
      · cases h

/-- A list is passed from item to item. -/
theorem tableList_ahead (hR : Ahead R) (env : Env σ) (bound : List String) (s : σ) :
    R s (tableList env bound s).2 := by
  fun_induction tableList env bound s with
  | case1 bound s => exact hR.refl s
  | case2 bound s found rest h hn => exact tableItem?_ahead hR h
  | case3 bound s found rest h next hn more ih =>
      exact hR.trans (hR.trans (tableItem?_ahead hR h) (nextTable?_ahead hR hn)) ih

/-! ## Openings -/

/-- The parenthesis in front of the body of a definition is passed, and the words in front of it. -/
theorem openBody_ahead (hR : Ahead R) {inside : σ} (h : openBody s = .ok inside) : R s inside := by
  unfold openBody at h
  split at h
  · cases h
  · next r ha =>
      split at h
      · cases h
      · next hp =>
          cases h
          exact hR.trans (accept?_ahead hR ha) (accept?_ahead hR hp)

/-- Where the body of a definition is missing, the words that are there are passed. -/
theorem openBody_error_ahead (hR : Ahead R) {stop : σ} (h : openBody s = .error stop) : R s stop := by
  unfold openBody at h
  split at h
  · cases h
    exact hR.refl s
  · next r ha =>
      split at h
      · cases h
        exact accept?_ahead hR ha
      · cases h

/-- Definitions are passed one after the other, up to the first one that has no body. -/
theorem commonTables_ahead (hR : Ahead R) (env : Env σ) (isRecursive : Bool) (bound : List String)
    (s : σ) : R s (commonTables env isRecursive bound s).2 := by
  fun_induction commonTables env isRecursive bound s with
  | case1 bound s => exact hR.refl s
  | case2 bound s t rest h hi name early stop hb =>
      exact hR.trans (hR.trans (hR.next h) (skipSpan_ahead hR rest)) (openBody_error_ahead hR hb)
  | case3 bound s t rest h hi name early late inside hb found hc =>
      have hinside := hR.trans (hR.trans (hR.next h) (skipSpan_ahead hR rest)) (openBody_ahead hR hb)
      exact hR.trans hinside (hR.behind inside)
  | case4 bound s t rest h hi name early late inside hb found next hc more ih =>
      have hinside := hR.trans (hR.trans (hR.next h) (skipSpan_ahead hR rest)) (openBody_ahead hR hb)
      exact hR.trans (hR.trans (hR.trans hinside (hR.behind inside)) (accept?_ahead hR hc)) ih
  | case5 bound s => exact hR.refl s

theorem withClause_ahead (hR : Ahead R) (env : Env σ) (bound : List String) (s : σ) :
    R s (withClause env bound s).2 := by
  unfold withClause
  split
  · next rest h => exact hR.trans (accept?_ahead hR h) (commonTables_ahead hR env true bound rest)
  · exact commonTables_ahead hR env false bound s

/-- The opening of a statement is passed: its `WITH` clauses and the word of its command. -/
theorem opening_ahead (hR : Ahead R) (env : Env σ) (bound : List String) (s : σ) :
    R s (opening env bound s).rest := by
  fun_induction opening env bound s with
  | case2 bound s t rest h hk clause more ih =>
      exact hR.trans (hR.trans (hR.next h) (withClause_ahead hR env bound rest)) ih
  | case3 bound s t rest h => exact hR.next h
  | case1 | case4 | case5 | case6 => exact hR.refl _

/-! ## Targets of commands -/

theorem skipHosts_ahead (hR : Ahead R) (s : σ) : R s (skipHosts s) := by
  fun_induction skipHosts s with
  | case1 s rest h ih => exact hR.trans (hR.trans (accept?_ahead hR h) (advance_ahead hR rest)) ih
  | case2 s h => exact hR.refl s

theorem skipOptionValue_ahead (hR : Ahead R) (s : σ) : R s (skipOptionValue s) := by
  unfold skipOptionValue
  split
  · next rest h =>
      have hvalue := hR.trans (accept?_ahead hR h) (advance_ahead hR rest)
      exact hR.trans (hR.trans hvalue (skipHosts_ahead hR _)) (skipSpan_ahead hR _)
  · exact hR.refl s

/-- The words in front of the object of a schema change are passed, one at a time. -/
theorem ddlObject_ahead (hR : Ahead R) (kindKnown : Bool) (s : σ) : R s (ddlObject kindKnown s).2 := by
  fun_induction ddlObject kindKnown s with
  | case2 kindKnown s t rest h k hk hf ih => exact hR.trans (hR.next h) ih
  | case3 kindKnown s t rest h => exact hR.next h
  | case8 kindKnown s t rest h hk hn ho hd ih =>
      exact hR.trans (hR.trans (hR.next h) (skipOptionValue_ahead hR rest)) ih
  -- In every other case nothing is passed.
  | case1 | case4 | case5 | case6 | case7 | case9 => exact hR.refl _

/-- All tokens up to a semicolon or `ON` are passed, and behind `ON` the name of a table. -/
theorem tableAfterOn_ahead (hR : Ahead R) (env : Env σ) (bound : List String) (s : σ) :
    R s (tableAfterOn env bound s).2 := by
  fun_induction tableAfterOn env bound s with
  | case1 s => exact hR.refl s
  | case2 s rest h => exact hR.next h
  | case3 s t rest h hs ho => exact hR.trans (hR.next h) (tableName_ahead hR env bound rest)
  | case4 s t rest h hs ho ih => exact hR.trans (hR.next h) ih

theorem tableNames_ahead (hR : Ahead R) (env : Env σ) (bound : List String) (s : σ) :
    R s (tableNames env bound s).2 := by
  fun_induction tableNames env bound s with
  | case1 s => exact hR.refl s
  | case2 s found rest h hc => exact tableName?_ahead hR h
  | case3 s found rest h next hc more ih =>
      exact hR.trans (hR.trans (tableName?_ahead hR h) (accept?_ahead hR hc)) ih

/-- Whatever the object of a schema change is, its words and its names are passed. -/
theorem ddlTargets_ahead (hR : Ahead R) (env : Env σ) (bound : List String) (type : StatementType)
    (s : σ) : R s (ddlTargets env bound type s).2 := by
  have hobject := ddlObject_ahead hR (type == .truncate) s
  unfold ddlTargets
  split
  · next rest hd =>
      rw [hd] at hobject
      split
      · exact hR.trans hobject (tableNames_ahead hR env bound rest)
      · exact hR.trans hobject (tableName_ahead hR env bound rest)
  · next rest hd =>
      rw [hd] at hobject
      have hname := hR.trans (skipKeywords_ahead hR Keyword.isDdlFiller rest) (skipName_ahead hR _)
      exact hR.trans (hR.trans hobject hname) (tableAfterOn_ahead hR env bound _)
  · next rest hd =>
      rw [hd] at hobject
      exact hobject

theorem targets_ahead (hR : Ahead R) (env : Env σ) (bound : List String) (type : StatementType)
    (s : σ) : R s (targets env bound type s).2 := by
  cases type with
  | insert | replace => exact hR.trans (skipKeywords_ahead hR _ s) (tableName_ahead hR env bound _)
  | update => exact hR.trans (skipKeywords_ahead hR _ s) (tableList_ahead hR env bound _)
  | alter | drop | create | truncate => exact ddlTargets_ahead hR env bound _ s
  | select => exact skipKeywords_ahead hR _ s
  | delete | unknown => exact hR.refl s

/-! ## The rest of a statement -/

/-- What belongs to a token of the body is passed: a span, a list or modifiers. -/
theorem clause_ahead (hR : Ahead R) (env : Env σ) (bound : List String) (t : Token) (rest : σ) :
    R rest (clause env bound t rest).2 := by
  unfold clause
  split
  · exact hR.behind rest
  · split
    · split
      · exact tableList_ahead hR env bound rest
      · split
        · exact skipKeywords_ahead hR _ rest
        · split
          · exact tableList_ahead hR env bound rest
          · exact hR.refl rest
    · exact hR.refl rest

end SqlTables
