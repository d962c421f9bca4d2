import SqlTables.Extraction.Body
import SqlTables.Proofs.Token.Tracks

/-!
# `SqlTables.Proofs.Simulation.Readers` — readers on two sources at once

If the tokens of two sources track each other, every reader does the same on both, and what is left of
them tracks again. No reader reacts to minus signs at the end: once one source holds nothing else, so
does the other, and both are idle.

## Contents
- **`Token.Like`** and **`LikeTokens`**: relations of tokens that no reader tells apart.
- **`Follows`**, **`Idle`** and **`follows_cases`**: one step of both sources.
- One lemma `…_follows` for each reader of single tokens, spans, names, aliases, hints and options.
-/

namespace SqlTables

open TokenSource

/-! ## Tokens that are read alike -/

/-- Two tokens that every reader treats in the same way. Only the names they spell may differ. -/
structure Token.Like (t u : Token) : Prop where
  isIdentifier : t.isIdentifier = u.isIdentifier
  keyword? : t.keyword? = u.keyword?
  isWordOf (names : List String) : t.isWordOf names = u.isWordOf names
  isAlias : isAlias t = isAlias u
  sym (c : Char) : t = .sym c ↔ u = .sym c

theorem Token.Like.rfl {t : Token} : Token.Like t t :=
  ⟨Eq.refl _, Eq.refl _, fun _ => Eq.refl _, Eq.refl _, fun _ => Iff.rfl⟩

theorem Token.Like.isKeyword {t u : Token} (h : Token.Like t u) (p : Keyword → Bool) :
    t.isKeyword p = u.isKeyword p := by
  rw [Token.isKeyword, Token.isKeyword, h.keyword?]

theorem Token.Like.startsName {t u : Token} (h : Token.Like t u) : startsName t = startsName u := by
  rw [SqlTables.startsName, SqlTables.startsName, h.isIdentifier, h.isKeyword]

/-- A relation whose tokens are read alike. -/
class LikeTokens (rel : Token → Token → Prop) : Prop where
  like {t u : Token} : rel t u → Token.Like t u

instance : LikeTokens Eq where
  like := by
    rintro t u rfl
    exact .rfl

theorem keepsSyms {rel : Token → Token → Prop} [LikeTokens rel] : KeepsSyms rel :=
  fun h c => (LikeTokens.like h).sym c

/-! ## Two sources -/

variable {σ τ : Type} [TokenSource σ] [TokenSource τ] {rel : Token → Token → Prop}

/-- Two sources whose tokens track each other. -/
def Follows (rel : Token → Token → Prop) (s : σ) (t : τ) : Prop := Tracks rel (tokens s) (tokens t)

/-- A source that holds nothing but minus signs. -/
def Idle (s : σ) : Prop := Trailing (tokens s)

theorem follows_of_idle {s : σ} {t : τ} (hs : Idle s) (ht : Idle t) : Follows rel s t :=
  .trail hs ht

/-- An idle source has nothing left but trailing minus signs. -/
theorem next?_of_idle {s : σ} (h : Idle s) :
    next? s = none ∨ ∃ rest, next? s = some (.sym '-', rest) ∧ Idle rest := by
  cases hn : next? s with
  | none => exact Or.inl rfl
  | some r =>
      obtain ⟨t, rest⟩ := r
      rw [Idle, tokens_of_next? hn, trailing_cons] at h
      exact Or.inr ⟨rest, by rw [h.1], h.2⟩

/-- Either both sources offer related tokens and go on following each other, or both are idle. -/
theorem follows_cases {s : σ} {t : τ} (h : Follows rel s t) :
    (∃ x y s' t', next? s = some (x, s') ∧ next? t = some (y, t') ∧ rel x y ∧ Follows rel s' t') ∨
      Idle s ∧ Idle t := by
  unfold Follows at h
  generalize ha : tokens s = a at h
  generalize hb : tokens t = b at h
  cases h with
  | trail hta htb =>
      right
      rw [Idle, Idle, ha, hb]
      exact ⟨hta, htb⟩
  | next hr htail =>
      obtain ⟨s', hs, rfl⟩ := next?_of_tokens_cons ha
      obtain ⟨t', ht, rfl⟩ := next?_of_tokens_cons hb
      exact Or.inl ⟨_, _, s', t', hs, ht, hr, htail⟩

/-- Nothing on both sides, or related things. -/
def Both {α β : Type} (R : α → β → Prop) (x : Option α) (y : Option β) : Prop :=
  x = none ∧ y = none ∨ ∃ a b, x = some a ∧ y = some b ∧ R a b

/-! ## Single tokens -/

variable {p : Token → Bool} {s : σ} {t : τ}

/-- No reader that asks for something else takes one of these. -/
theorem accept?_of_idle (h0 : p (.sym '-') = false) (h : Idle s) : accept? p s = none := by
  unfold accept?
  rcases next?_of_idle h with hn | ⟨rest, hn, _⟩
  · rw [hn]
  · rw [hn]
    simp only
    rw [h0, if_neg Bool.false_ne_true]

/-- A token is accepted on both sides or on neither, provided that related tokens are accepted alike and a
    minus sign is not. -/
theorem accept?_follows (hp : ∀ x y, rel x y → p x = p y) (h0 : p (.sym '-') = false)
    (h : Follows rel s t) : Both (Follows rel) (accept? p s) (accept? p t) := by
  rcases follows_cases h with ⟨x, y, s', t', hs, ht, hr, hf⟩ | ⟨hs, ht⟩
  · unfold accept?
    rw [hs, ht]
    simp only
    rw [hp x y hr]
    by_cases hy : p y = true
    · rw [if_pos hy, if_pos hy]
      exact Or.inr ⟨s', t', rfl, rfl, hf⟩
    · rw [if_neg hy, if_neg hy]
      exact Or.inl ⟨rfl, rfl⟩
  · exact Or.inl ⟨accept?_of_idle h0 hs, accept?_of_idle h0 ht⟩

/-- One token may be passed over on both sides. -/
theorem skip_follows (hp : ∀ x y, rel x y → p x = p y) (h0 : p (.sym '-') = false)
    (h : Follows rel s t) : Follows rel (skip p s) (skip p t) := by
  unfold skip
  rcases accept?_follows hp h0 h with ⟨hs, ht⟩ | ⟨s', t', hs, ht, hf⟩
  · rw [hs, ht]
    exact h
  · rw [hs, ht]
    exact hf

theorem idle_advance (h : Idle s) : Idle (advance s) := by
  unfold advance skip accept?
  rcases next?_of_idle h with hn | ⟨rest, hn, hi⟩
  · rw [hn]
    exact h
  · rw [hn]
    exact hi

/-- A token taken unseen is taken on both sides, unless only minus signs are left. -/
theorem advance_follows (h : Follows rel s t) : Follows rel (advance s) (advance t) := by
  rcases follows_cases h with ⟨x, y, s', t', hs, ht, _, hf⟩ | ⟨hs, ht⟩
  · unfold advance skip accept?
    rw [hs, ht]
    exact hf
  · exact follows_of_idle (idle_advance hs) (idle_advance ht)

/-- A loop that goes on while a step succeeds does the same on both sources if its step does. -/
theorem loop_follows {loop : σ → σ} {loop' : τ → τ} {step : σ → Option σ} {step' : τ → Option τ}
    (hloop : ∀ s, loop s = match step s with | some rest => loop rest | none => s)
    (hloop' : ∀ t, loop' t = match step' t with | some rest => loop' rest | none => t)
    (hlt : ∀ s rest, step s = some rest → size rest < size s)
    (hstep : ∀ s t, Follows rel s t → Both (Follows rel) (step s) (step' t))
    (h : Follows rel s t) : Follows rel (loop s) (loop' t) := by
  generalize hn : size s = n
  induction n using Nat.strongRecOn generalizing s t with
  | ind n ih =>
      rw [hloop s, hloop' t]
      rcases hstep s t h with ⟨hs, ht⟩ | ⟨s', t', hs, ht, hf⟩
      · rw [hs, ht]
        exact h
      · rw [hs, ht]
        exact ih (size s') (hn ▸ hlt s s' hs) hf rfl

/-- Tokens are passed over in step. -/
theorem skipWhile_follows (hp : ∀ x y, rel x y → p x = p y) (h0 : p (.sym '-') = false)
    (h : Follows rel s t) : Follows rel (skipWhile p s) (skipWhile p t) :=
  loop_follows (skipWhile_eq p) (skipWhile_eq p) (fun _ _ => size_lt_of_accept?)
    (fun _ _ hf => accept?_follows hp h0 hf) h

theorem startsQuery_of_idle (h : Idle s) : startsQuery s = false := by
  unfold startsQuery peek?
  rcases next?_of_idle h with hn | ⟨rest, hn, _⟩
  · rw [hn]
    rfl
  · rw [hn]
    rfl

variable [LikeTokens rel]

theorem acceptSym?_follows {c : Char} (hc : (Token.sym '-' == .sym c) = false)
    (h : Follows rel s t) : Both (Follows rel) (acceptSym? c s) (acceptSym? c t) := by
  refine accept?_follows (fun x y hr => ?_) hc h
  rw [Bool.eq_iff_iff, beq_iff_eq, beq_iff_eq]
  exact keepsSyms hr c

theorem acceptKeyword?_follows (p : Keyword → Bool) (h : Follows rel s t) :
    Both (Follows rel) (acceptKeyword? p s) (acceptKeyword? p t) :=
  accept?_follows (fun _ _ hr => (LikeTokens.like hr).isKeyword p) rfl h

theorem skipKeywords_follows (p : Keyword → Bool) (h : Follows rel s t) :
    Follows rel (skipKeywords p s) (skipKeywords p t) :=
  skipWhile_follows (fun _ _ hr => (LikeTokens.like hr).isKeyword p) rfl h

/-- Related tokens start a query alike. -/
theorem startsQuery_follows (h : Follows rel s t) : startsQuery s = startsQuery t := by
  rcases follows_cases h with ⟨x, y, s', t', hs, ht, hr, _⟩ | ⟨hs, ht⟩
  · unfold startsQuery peek?
    rw [hs, ht]
    exact (LikeTokens.like hr).isKeyword _
  · rw [startsQuery_of_idle hs, startsQuery_of_idle ht]

/-- Behind parentheses, too, which are related to themselves only. -/
theorem startsParenthesizedQuery_follows (h : Follows rel s t) :
    startsParenthesizedQuery s = startsParenthesizedQuery t := by
  refine startsQuery_follows (skipWhile_follows (fun x y hr => ?_) rfl h)
  rw [Bool.eq_iff_iff, beq_iff_eq, beq_iff_eq]
  exact keepsSyms hr '('

/-! ## Names -/

/-- Related tokens that can be names. -/
def SameIdentifier (rel : Token → Token → Prop) (t u : Token) : Prop :=
  rel t u ∧ t.isIdentifier = true

/-- Qualified names of related tokens. -/
structure LikeName (rel : Token → Token → Prop) (n m : QualifiedName) : Prop where
  table : SameIdentifier rel n.table m.table
  schema : Both (SameIdentifier rel) n.schema m.schema

/-- An identifier that may come next, as behind a dot. -/
theorem identifier_of_idle (h : Idle s) :
    ((next? s).bind fun x => if x.1.isIdentifier then some x else none) = none := by
  rcases next?_of_idle h with hn | ⟨rest, hn, _⟩
  · rw [hn]
    rfl
  · rw [hn]
    rfl

/-- A further part of a name comes on both sides, and it is the same identifier up to the relation. -/
theorem dottedPart?_follows (h : Follows rel s t) :
    Both (fun x y => SameIdentifier rel x.1 y.1 ∧ Follows rel x.2 y.2) (dottedPart? s)
      (dottedPart? t) := by
  simp only [dottedPart?, Option.bind_eq_bind]
  rcases acceptSym?_follows (c := '.') rfl h with ⟨hs, ht⟩ | ⟨s', t', hs, ht, hf⟩
  · rw [hs, ht]
    exact Or.inl ⟨rfl, rfl⟩
  · rw [hs, ht, Option.bind_some, Option.bind_some]
    rcases follows_cases hf with ⟨x, y, s'', t'', hs', ht', hr, hf'⟩ | ⟨hsi, hti⟩
    · rw [hs', ht', Option.bind_some, Option.bind_some]
      simp only
      rw [← (LikeTokens.like hr).isIdentifier]
      by_cases hx : x.isIdentifier = true
      · rw [if_pos hx, if_pos hx]
        exact Or.inr ⟨_, _, rfl, rfl, ⟨hr, hx⟩, hf'⟩
      · rw [if_neg hx, if_neg hx]
        exact Or.inl ⟨rfl, rfl⟩
    · exact Or.inl ⟨identifier_of_idle hsi, identifier_of_idle hti⟩

/-- So all further parts are related, last and last but one in particular. -/
theorem furtherParts_follows {n m : QualifiedName} (hname : LikeName rel n m)
    (h : Follows rel s t) :
    LikeName rel (furtherParts n s).1 (furtherParts m t).1 ∧
      Follows rel (furtherParts n s).2 (furtherParts m t).2 := by
  fun_induction furtherParts n s generalizing m t with
  | case1 n s part rest hs ih =>
      rcases dottedPart?_follows h with ⟨hn, _⟩ | ⟨x, y, hx, ht, hpart, hf⟩
      · rw [hs] at hn
        cases hn
      · obtain rfl := Option.some.inj (hs.symm.trans hx)
        rw [furtherParts_eq m t, ht]
        exact ih ⟨hpart, Or.inr ⟨_, _, rfl, rfl, hname.table⟩⟩ hf
  | case2 n s hs =>
      rcases dottedPart?_follows h with ⟨_, ht⟩ | ⟨x, y, hx, ht, hpart, hf⟩
      · rw [furtherParts_eq m t, ht]
        exact ⟨hname, h⟩
      · rw [hs] at hx
        cases hx

theorem qualifiedName?_of_idle (h : Idle s) : qualifiedName? s = none := by
  unfold qualifiedName?
  rcases next?_of_idle h with hn | ⟨rest, hn, _⟩
  · rw [hn]
  · rw [hn]
    rfl

/-- Names that come next are related part by part. -/
theorem qualifiedName?_follows (h : Follows rel s t) :
    Both (fun x y => LikeName rel x.1 y.1 ∧ Follows rel x.2 y.2) (qualifiedName? s)
      (qualifiedName? t) := by
  rcases follows_cases h with ⟨x, y, s', t', hs, ht, hr, hf⟩ | ⟨hs, ht⟩
  · unfold qualifiedName?
    rw [hs, ht]
    simp only
    rw [← (LikeTokens.like hr).startsName]
    by_cases hx : startsName x = true
    · rw [if_pos hx, if_pos hx]
      have hid : x.isIdentifier = true := (Bool.and_eq_true _ _ ▸ hx).1
      exact Or.inr ⟨_, _, rfl, rfl, furtherParts_follows ⟨⟨hr, hid⟩, Or.inl ⟨rfl, rfl⟩⟩ hf⟩
    · rw [if_neg hx, if_neg hx]
      exact Or.inl ⟨rfl, rfl⟩
  · exact Or.inl ⟨qualifiedName?_of_idle hs, qualifiedName?_of_idle ht⟩

/-- What is behind a name that need not be there. -/
theorem skipName_follows (h : Follows rel s t) : Follows rel (skipName s) (skipName t) := by
  unfold skipName
  rcases qualifiedName?_follows h with ⟨hs, ht⟩ | ⟨x, y, hs, ht, _, hf⟩
  · rw [hs, ht]
    exact h
  · rw [hs, ht]
    exact hf

/-! ## Aliases and separators of a list -/

theorem skipAlias_of_idle (h : Idle s) : skipAlias s = s := by
  unfold skipAlias
  rcases next?_of_idle h with hn | ⟨rest, hn, _⟩
  · rw [hn]
  · rw [hn]
    rfl

/-- An alias is passed over on both sides. Only the class of its token counts. -/
theorem skipAlias_follows (h : Follows rel s t) : Follows rel (skipAlias s) (skipAlias t) := by
  rcases follows_cases h with ⟨x, y, s', t', hs, ht, hr, hf⟩ | ⟨hs, ht⟩
  · have hlike := LikeTokens.like hr
    unfold skipAlias
    rw [hs, ht]
    simp only [hlike.keyword?, hlike.isIdentifier]
    split
    · exact skip_follows (fun _ _ hr => (LikeTokens.like hr).isAlias) rfl hf
    · exact h
    · split
      · exact hf
      · exact h
  · rw [skipAlias_of_idle hs, skipAlias_of_idle ht]
    exact h

/-- Both runs come to a further table or neither does. -/
theorem nextTable?_follows (h : Follows rel s t) :
    Both (Follows rel) (nextTable? s) (nextTable? t) := by
  unfold nextTable?
  rcases acceptSym?_follows (c := ',') rfl h with ⟨hs, ht⟩ | ⟨s', t', hs, ht, hf⟩
  · rw [hs, ht]
    exact acceptKeyword?_follows _ (skipKeywords_follows _ h)
  · rw [hs, ht]
    exact Or.inr ⟨s', t', rfl, rfl, hf⟩

/-! ## Parts of hints, options and `WITH` clauses -/

/-- The last word of a purpose is taken unseen on both sides. -/
theorem skipHintPurpose_follows (h : Follows rel s t) :
    Follows rel (skipHintPurpose s) (skipHintPurpose t) := by
  unfold skipHintPurpose
  rcases acceptKeyword?_follows (· == .FOR) h with ⟨hs, ht⟩ | ⟨s', t', hs, ht, hf⟩
  · rw [hs, ht]
    exact h
  · rw [hs, ht]
    simp only
    rcases acceptKeyword?_follows (fun k => k == .ORDER || k == .GROUP) hf with
      ⟨hs', ht'⟩ | ⟨s'', t'', hs', ht', hf'⟩
    · rw [hs', ht']
      exact advance_follows hf
    · rw [hs', ht']
      exact advance_follows hf'

/-- An `@` and the host behind it. -/
def host? {σ : Type} [TokenSource σ] (s : σ) : Option σ := (acceptSym? '@' s).map advance

/-- Hosts as a loop over one reader, in the form that `loop_follows` asks for. -/
theorem skipHosts_eq_host? {σ : Type} [TokenSource σ] (s : σ) :
    skipHosts s = match host? s with | some rest => skipHosts rest | none => s := by
  rw [skipHosts_eq, host?]
  cases acceptSym? '@' s <;> rfl

theorem size_lt_of_host? {s rest : σ} (h : host? s = some rest) : size rest < size s := by
  obtain ⟨mid, hm, rfl⟩ := Option.map_eq_some_iff.mp h
  exact Nat.lt_of_le_of_lt (size_advance_le mid) (size_lt_of_accept? hm)

theorem host?_follows (h : Follows rel s t) : Both (Follows rel) (host? s) (host? t) := by
  unfold host?
  rcases acceptSym?_follows (c := '@') rfl h with ⟨hs, ht⟩ | ⟨s', t', hs, ht, hf⟩
  · rw [hs, ht]
    exact Or.inl ⟨rfl, rfl⟩
  · rw [hs, ht]
    exact Or.inr ⟨_, _, rfl, rfl, advance_follows hf⟩

theorem skipHosts_follows (h : Follows rel s t) : Follows rel (skipHosts s) (skipHosts t) :=
  loop_follows skipHosts_eq_host? skipHosts_eq_host? (fun _ _ => size_lt_of_host?)
    (fun _ _ hf => host?_follows hf) h

theorem ddlObject_of_idle (h : Idle s) (kindKnown : Bool) : ddlObject kindKnown s = (.table, s) := by
  rw [ddlObject_eq]
  rcases next?_of_idle h with hn | ⟨rest, hn, _⟩
  · rw [hn]
  · rw [hn]
    cases kindKnown <;> rfl

/-- What follows `AS (` tracks, and so does the place where something else was met. -/
theorem openBody_follows (h : Follows rel s t) :
    (∃ s' t', openBody s = .ok s' ∧ openBody t = .ok t' ∧ Follows rel s' t') ∨
      ∃ s' t', openBody s = .error s' ∧ openBody t = .error t' ∧ Follows rel s' t' := by
  unfold openBody
  rcases acceptKeyword?_follows (· == .AS) h with ⟨hs, ht⟩ | ⟨s', t', hs, ht, hf⟩
  · rw [hs, ht]
    exact Or.inr ⟨s, t, rfl, rfl, h⟩
  · rw [hs, ht]
    simp only
    rcases acceptSym?_follows (c := '(') rfl hf with ⟨hs', ht'⟩ | ⟨s'', t'', hs', ht', hf'⟩
    · rw [hs', ht']
      exact Or.inr ⟨s', t', rfl, rfl, hf⟩
    · rw [hs', ht']
      exact Or.inl ⟨s'', t'', rfl, rfl, hf'⟩

/-! ## Spans -/

variable [LawfulSource σ] [LawfulSource τ]

/-- A source cut out of parentheses may have lost or gained trailing minus signs against the tokens in them,
    and tracking does not see the difference. -/
theorem span_follows (h : Follows rel s t) : Follows rel (enclosed s).1 (enclosed t).1 := by
  have hleft := LawfulSource.tokens_span s
  have hright := LawfulSource.tokens_span t
  have hmid := (closeSpan_tracks keepsSyms h 0).1
  have hstart : Tracks rel (tokens (enclosed s).1) (closeSpan 0 (tokens t)).1 :=
    tracks_trans keepsSyms_eq keepsSyms (fun he hr => he ▸ hr) hleft hmid
  exact tracks_trans keepsSyms keepsSyms_eq (fun hr he => he ▸ hr) hstart (tracks_symm hright)

/-- Behind the parentheses both sources go on following each other. -/
theorem afterSpan_follows (h : Follows rel s t) : Follows rel (enclosed s).2 (enclosed t).2 := by
  unfold Follows
  rw [LawfulSource.tokens_afterSpan, LawfulSource.tokens_afterSpan]
  exact (closeSpan_tracks keepsSyms h 0).2

/-- A span that is passed over is left on both sides. -/
theorem skipSpan_follows (h : Follows rel s t) : Follows rel (skipSpan s) (skipSpan t) := by
  unfold skipSpan
  rcases acceptSym?_follows (c := '(') rfl h with ⟨hs, ht⟩ | ⟨s', t', hs, ht, hf⟩
  · rw [hs, ht]
    exact h
  · rw [hs, ht]
    exact afterSpan_follows hf

theorem skipPartition_follows (h : Follows rel s t) :
    Follows rel (skipPartition s) (skipPartition t) := by
  unfold skipPartition
  rcases acceptKeyword?_follows (· == .PARTITION) h with ⟨hs, ht⟩ | ⟨s', t', hs, ht, hf⟩
  · rw [hs, ht]
    exact h
  · rw [hs, ht]
    exact skipSpan_follows hf

/-- A hint comes on both sides or on neither, whatever its words are apart from keywords. -/
theorem indexHint?_follows (h : Follows rel s t) :
    Both (Follows rel) (indexHint? s) (indexHint? t) := by
  simp only [indexHint?, Option.bind_eq_bind]
  rcases acceptKeyword?_follows (fun k => k == .USE || k == .FORCE || k == .IGNORE) h with
    ⟨hs, ht⟩ | ⟨s', t', hs, ht, hf⟩
  · rw [hs, ht]
    exact Or.inl ⟨rfl, rfl⟩
  · rw [hs, ht, Option.bind_some, Option.bind_some]
    rcases acceptKeyword?_follows (fun k => k == .INDEX || k == .KEY) hf with
      ⟨hs', ht'⟩ | ⟨s'', t'', hs', ht', hf'⟩
    · rw [hs', ht']
      exact Or.inl ⟨rfl, rfl⟩
    · rw [hs', ht', Option.bind_some, Option.bind_some]
      exact Or.inr ⟨_, _, rfl, rfl, skipSpan_follows (skipHintPurpose_follows hf')⟩

/-- Hints are passed over in step. -/
theorem skipIndexHints_follows (h : Follows rel s t) :
    Follows rel (skipIndexHints s) (skipIndexHints t) :=
  loop_follows skipIndexHints_eq skipIndexHints_eq (fun _ _ => size_lt_of_indexHint?)
    (fun _ _ hf => indexHint?_follows hf) h

/-- The value of an option, its hosts and the span behind it are passed over on both sides. -/
theorem skipOptionValue_follows (h : Follows rel s t) :
    Follows rel (skipOptionValue s) (skipOptionValue t) := by
  unfold skipOptionValue
  rcases acceptSym?_follows (c := '=') rfl h with ⟨hs, ht⟩ | ⟨s', t', hs, ht, hf⟩
  · rw [hs, ht]
    exact h
  · rw [hs, ht]
    exact skipSpan_follows (skipHosts_follows (advance_follows hf))

/-- The words in front of the object of a schema change are read in step, and they tell the same kind of
    object. -/
theorem ddlObject_follows (h : Follows rel s t) (kindKnown : Bool) :
    (ddlObject kindKnown s).1 = (ddlObject kindKnown t).1 ∧
      Follows rel (ddlObject kindKnown s).2 (ddlObject kindKnown t).2 := by
  generalize hn : size s = n
  induction n using Nat.strongRecOn generalizing s t kindKnown with
  | ind n ih =>
      rcases follows_cases h with ⟨x, y, s', t', hs, ht, hr, hf⟩ | ⟨hs, ht⟩
      · have hlike := LikeTokens.like hr
        have hlt := size_lt_of_next? hs
        have hval := size_skipOptionValue_le s'
        rw [ddlObject_eq, ddlObject_eq, hs, ht]
        -- Both readers ask the same questions of related tokens, so they take the same branch.
        simp only [hlike.keyword?, hlike.isWordOf]
        split
        · split
          · exact ih _ (by omega) hf _ rfl
          · split
            · exact ⟨rfl, hf⟩
            · split <;> exact ⟨rfl, h⟩
        · split
          · exact ⟨rfl, h⟩
          · split
            · exact ⟨rfl, h⟩
            · split
              · exact ih _ (by omega) (skipOptionValue_follows hf) _ rfl
              · exact ⟨rfl, h⟩
      · rw [ddlObject_of_idle hs, ddlObject_of_idle ht]
        exact ⟨rfl, h⟩

end SqlTables
