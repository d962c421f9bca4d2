import SqlTables.Extraction
import SqlTables.Proofs.Simulation.Readers

/-!
# `SqlTables.Proofs.Simulation` — the extraction on two sources at once

The extraction is run on two sources whose tokens track each other, under two environments. If the
recording of a name and the search of a span find related things on both sides, then so does every
routine, up to whole statements. What related means is left open: equality, equality up to the case
of letters, or a sublist.

## Contents
- **`FindingsRel`**: a relation of what is found, together with the names bound before.
- **`EnvRel`**: environments under which names and spans are related.
- One lemma `…_rel` for each routine, up to `span_rel`.
- **`EnvRel.nested`** and **`extract_rel`**: any depth, and whole statements.
-/

namespace SqlTables

open TokenSource

/-! ## Relations -/

/-- A relation of what two runs find, given the names that each of them has bound before. -/
structure FindingsRel where
  bound : List String → List String → Prop
  found : List String → List String → Findings → Findings → Prop
  empty {b c} : bound b c → found b c ∅ ∅
  append {b c f g f' g'} : found b c f g → found (b ++ f.bound) (c ++ g.bound) f' g' →
    found b c (f ++ f') (g ++ g')
  extend {b c f g} : bound b c → found b c f g → bound (b ++ f.bound) (c ++ g.bound)

variable {σ τ : Type} [TokenSource σ] [TokenSource τ] {rel : Token → Token → Prop}

/-- Two environments under which names and spans make for related findings. Names are bound only
    where a `WITH` can be read, and `USING` matters only where one can be read. -/
structure EnvRel (rel : Token → Token → Prop) (F : FindingsRel) (env : Env σ) (env' : Env τ) :
    Prop where
  usingTables {w w'} : rel w w' → w.keyword? = some .USING → env.usingTables = env'.usingTables
  record {b c n m} : F.bound b c → LikeName rel n m → F.found b c (env.record b n) (env'.record c m)
  names {w w' b c t u} : rel w w' → w.keyword? = some .WITH → F.bound b c →
    SameIdentifier rel t u →
    F.found b c (.ofNames [t.name env.lower]) (.ofNames [u.name env'.lower])
  search {b c} {s : σ} {t : τ} (place : Place) : F.bound b c → Follows rel s t →
    F.found b c (env.search place b s) (env'.search place c t)

/-- Related findings and sources that go on following each other. -/
def PairRel (rel : Token → Token → Prop) (F : FindingsRel) (b c : List String)
    (x : Findings × σ) (y : Findings × τ) : Prop :=
  F.found b c x.1 y.1 ∧ Follows rel x.2 y.2

variable {F : FindingsRel} {env : Env σ} {env' : Env τ} {b c : List String} {s : σ} {t : τ}

theorem FindingsRel.appendPair {f g : Findings} {x : Findings × σ} {y : Findings × τ}
    (h : F.found b c f g) (hxy : PairRel rel F (b ++ f.bound) (c ++ g.bound) x y) :
    PairRel rel F b c (f ++ x.1, x.2) (g ++ y.1, y.2) :=
  ⟨F.append h hxy.1, hxy.2⟩

/-! ## Idle sources -/

/-- The search for `ON` passes what an idle source still has. -/
theorem tableAfterOn_of_idle (env : Env σ) (b : List String) (h : Idle s) :
    (tableAfterOn env b s).1 = ∅ ∧ Idle (tableAfterOn env b s).2 := by
  fun_induction tableAfterOn env b s with
  | case1 s hn => exact ⟨rfl, h⟩
  | case2 s rest hn =>
      rcases next?_of_idle h with hn' | ⟨_, hn', _⟩ <;> rw [hn] at hn' <;> cases hn'
  | case3 s t rest hn hs ho =>
      rcases next?_of_idle h with hn' | ⟨_, hn', _⟩ <;> rw [hn] at hn' <;> cases hn'
      cases ho
  | case4 s t rest hn hs ho ih =>
      rcases next?_of_idle h with hn' | ⟨_, hn', hi⟩ <;> rw [hn] at hn' <;> cases hn'
      exact ih hi

theorem commonTables_of_idle (env : Env σ) (isRecursive : Bool) (b : List String) (h : Idle s) :
    commonTables env isRecursive b s = (∅, s) := by
  rw [commonTables_eq]
  rcases next?_of_idle h with hn | ⟨rest, hn, _⟩
  · rw [hn]
  · rw [hn]
    rfl

theorem opening_of_idle (env : Env σ) (b : List String) (h : Idle s) :
    opening env b s = ⟨∅, .unknown, s⟩ := by
  rw [opening_eq]
  rcases next?_of_idle h with hn | ⟨rest, hn, _⟩
  · rw [hn]
  · rw [hn]
    rfl

/-- Each minus sign that an idle source still has is passed over and leads to nothing. -/
theorem body_of_idle (env : Env σ) (isTop : Bool) (b : List String) (h : Idle s) :
    body env isTop b s = ∅ := by
  generalize hn : size s = n
  induction n using Nat.strongRecOn generalizing s with
  | ind n ih =>
      rw [body_eq]
      rcases next?_of_idle h with hs | ⟨rest, hs, hi⟩
      · rw [hs]
      · have hclause : clause env b (.sym '-') rest = (∅, rest) := rfl
        rw [hs]
        simp only [hclause]
        rw [if_neg (by rintro ⟨_, he⟩; cases he), Findings.empty_append, Findings.bound_empty,
          List.append_nil]
        exact ih _ (hn ▸ size_lt_of_next? hs) hi rfl

/-- So it is among expressions. -/
theorem expression_of_idle (env : Env σ) (b : List String) (h : Idle s) :
    expression env b s = ∅ := by
  generalize hn : size s = n
  induction n using Nat.strongRecOn generalizing s with
  | ind n ih =>
      rw [expression_eq]
      rcases next?_of_idle h with hs | ⟨rest, hs, hi⟩
      · rw [hs]
      · rw [hs]
        exact ih _ (hn ▸ size_lt_of_next? hs) hi rfl

/-! ## Tables and lists -/

/-- A table binds no name. -/
theorem bound_of_tableName? {f : Findings} {s' : σ} (h : tableName? env b s = some (f, s')) :
    f.bound = [] := by
  obtain ⟨⟨n, r⟩, _, he⟩ := Option.map_eq_some_iff.mp h
  cases he
  exact env.bound_record b n

variable [LikeTokens rel]

/-- Both runs find a name or neither does, and what they record of it is related. -/
theorem tableName?_rel (hE : EnvRel rel F env env') (hb : F.bound b c) (h : Follows rel s t) :
    Both (PairRel rel F b c) (tableName? env b s) (tableName? env' c t) := by
  unfold tableName?
  rcases qualifiedName?_follows h with ⟨hs, ht⟩ | ⟨x, y, hs, ht, hname, hf⟩
  · rw [hs, ht]
    exact Or.inl ⟨rfl, rfl⟩
  · rw [hs, ht]
    exact Or.inr ⟨_, _, rfl, rfl, hE.record hb hname, hf⟩

/-- A name that need not be there. -/
theorem tableName_rel (hE : EnvRel rel F env env') (hb : F.bound b c) (h : Follows rel s t) :
    PairRel rel F b c (tableName env b s) (tableName env' c t) := by
  unfold tableName
  rcases tableName?_rel hE hb h with ⟨hs, ht⟩ | ⟨x, y, hs, ht, hxy⟩
  · rw [hs, ht]
    exact ⟨F.empty hb, h⟩
  · rw [hs, ht]
    exact hxy

/-- Both searches meet `ON` at the same time. They end apart only where one of them runs out and the other
    passes minus signs at its end, and there nothing is found. -/
theorem tableAfterOn_rel (hE : EnvRel rel F env env') (hb : F.bound b c) (h : Follows rel s t) :
    PairRel rel F b c (tableAfterOn env b s) (tableAfterOn env' c t) := by
  generalize hn : size s = n
  induction n using Nat.strongRecOn generalizing s t with
  | ind n ih =>
      rcases follows_cases h with ⟨x, y, s', t', hs, ht, hr, hf⟩ | ⟨hsi, hti⟩
      · have hlike := LikeTokens.like hr
        rw [tableAfterOn_eq env b s, tableAfterOn_eq env' c t, hs, ht]
        simp only [hlike.sym ';', hlike.isKeyword]
        split
        · exact ⟨F.empty hb, hf⟩
        · split
          · exact tableName_rel hE hb hf
          · exact ih _ (hn ▸ size_lt_of_next? hs) hf rfl
      · obtain ⟨hs, hsi'⟩ := tableAfterOn_of_idle env b hsi
        obtain ⟨ht, hti'⟩ := tableAfterOn_of_idle env' c hti
        refine ⟨?_, follows_of_idle hsi' hti'⟩
        rw [hs, ht]
        exact F.empty hb

/-- Names in a row bind nothing, so the names that are bound stay the same from one to the next. -/
theorem tableNames_rel (hE : EnvRel rel F env env') (hb : F.bound b c) (h : Follows rel s t) :
    PairRel rel F b c (tableNames env b s) (tableNames env' c t) := by
  generalize hn : size s = n
  induction n using Nat.strongRecOn generalizing s t with
  | ind n ih =>
      rw [tableNames_eq env b s, tableNames_eq env' c t]
      rcases tableName?_rel hE hb h with ⟨hs, ht⟩ | ⟨⟨f, s'⟩, ⟨g, t'⟩, hs, ht, hfound, hf⟩
      · rw [hs, ht]
        exact ⟨F.empty hb, h⟩
      · rw [hs, ht]
        simp only
        rcases acceptSym?_follows (c := ',') rfl hf with ⟨hs', ht'⟩ | ⟨s'', t'', hs', ht', hf'⟩
        · rw [hs', ht']
          exact ⟨hfound, hf⟩
        · rw [hs', ht']
          have hlt := Nat.lt_trans (size_lt_of_accept? hs') (size_lt_of_tableName? hs)
          refine F.appendPair hfound ?_
          rw [bound_of_tableName? hs, bound_of_tableName? ht, List.append_nil, List.append_nil]
          exact ih _ (hn ▸ hlt) hf' rfl

variable [LawfulSource σ] [LawfulSource τ]

/-- Both runs see the same kind of item: the span of a derived table, `DUAL` or a name. -/
theorem tableItem?_rel (hE : EnvRel rel F env env') (hb : F.bound b c) (h : Follows rel s t) :
    Both (PairRel rel F b c) (tableItem? env b s) (tableItem? env' c t) := by
  unfold tableItem?
  rcases acceptSym?_follows (c := '(') rfl h with ⟨hs, ht⟩ | ⟨s', t', hs, ht, hf⟩
  · rw [hs, ht]
    simp only
    rcases acceptKeyword?_follows (· == .DUAL) h with ⟨hs, ht⟩ | ⟨s', t', hs, ht, hf⟩
    · rw [hs, ht]
      simp only
      rcases tableName?_rel hE hb h with ⟨hs, ht⟩ | ⟨x, y, hs, ht, hfound, hf⟩
      · rw [hs, ht]
        exact Or.inl ⟨rfl, rfl⟩
      · rw [hs, ht]
        exact Or.inr ⟨_, _, rfl, rfl, hfound,
          skipIndexHints_follows (skipAlias_follows (skipPartition_follows hf))⟩
    · rw [hs, ht]
      exact Or.inr ⟨_, _, rfl, rfl, F.empty hb, skipIndexHints_follows (skipAlias_follows hf)⟩
  · rw [hs, ht]
    exact Or.inr ⟨_, _, rfl, rfl, hE.search _ hb (span_follows hf), skipIndexHints_follows
      (skipSpan_follows (skipAlias_follows (afterSpan_follows hf)))⟩

/-- A list goes on from related items with the names that these have bound. -/
theorem tableList_rel (hE : EnvRel rel F env env') (hb : F.bound b c) (h : Follows rel s t) :
    PairRel rel F b c (tableList env b s) (tableList env' c t) := by
  generalize hn : size s = n
  induction n using Nat.strongRecOn generalizing s t b c with
  | ind n ih =>
      rw [tableList_eq env b s, tableList_eq env' c t]
      rcases tableItem?_rel hE hb h with ⟨hs, ht⟩ | ⟨⟨f, s'⟩, ⟨g, t'⟩, hs, ht, hfound, hf⟩
      · rw [hs, ht]
        exact ⟨F.empty hb, h⟩
      · rw [hs, ht]
        simp only
        rcases nextTable?_follows hf with ⟨hs', ht'⟩ | ⟨s'', t'', hs', ht', hf'⟩
        · rw [hs', ht']
          exact ⟨hfound, hf⟩
        · rw [hs', ht']
          have hlt := Nat.lt_trans (size_lt_of_nextTable? hs') (size_lt_of_tableItem? hs)
          exact F.appendPair hfound (ih _ (hn ▸ hlt) (F.extend hb hfound) hf' rfl)

/-! ## `WITH` clauses and openings -/

/-- Definitions of both runs go on for the same number of bodies, and what was bound in front of a body is
    related when it is read. -/
theorem commonTables_rel {w w' : Token} (hE : EnvRel rel F env env') (hw : rel w w')
    (hk : w.keyword? = some .WITH) (isRecursive : Bool) (hb : F.bound b c) (h : Follows rel s t) :
    PairRel rel F b c (commonTables env isRecursive b s) (commonTables env' isRecursive c t) := by
  -- On the size of the left source: the right one stops where the left one does.
  generalize hn : size s = n
  induction n using Nat.strongRecOn generalizing s t b c with
  | ind n ih =>
      rcases follows_cases h with ⟨x, y, s', t', hs, ht, hr, hf⟩ | ⟨hsi, hti⟩
      · rw [commonTables_eq env isRecursive b s, commonTables_eq env' isRecursive c t, hs, ht]
        simp only
        rw [← (LikeTokens.like hr).isIdentifier]
        by_cases hx : x.isIdentifier = true
        · rw [if_pos hx, if_pos hx]
          -- The name is bound either in front of the body or behind it.
          have hearly : F.found b c (.ofNames (if isRecursive then [x.name env.lower] else []))
              (.ofNames (if isRecursive then [y.name env'.lower] else [])) := by
            cases isRecursive with
            | false => exact F.empty hb
            | true => exact hE.names hw hk hb ⟨hr, hx⟩
          have hlate : ∀ {b c}, F.bound b c →
              F.found b c (.ofNames (if isRecursive then [] else [x.name env.lower]))
                (.ofNames (if isRecursive then [] else [y.name env'.lower])) := by
            intro b c hb
            cases isRecursive with
            | false => exact hE.names hw hk hb ⟨hr, hx⟩
            | true => exact F.empty hb
          rcases openBody_follows (skipSpan_follows hf) with
            ⟨s'', t'', hs'', ht'', hf'⟩ | ⟨s'', t'', hs'', ht'', hf'⟩
          · rw [hs'', ht'']
            -- The body sees the names bound so far, and its own in the first case only.
            have hbody := F.append hearly
              (hE.search .expression (F.extend hb hearly) (span_follows hf'))
            have hfound := F.append hbody (hlate (F.extend hb hbody))
            have hafter := afterSpan_follows hf'
            simp only
            rcases acceptSym?_follows (c := ',') rfl hafter with ⟨hcs, hct⟩ | ⟨u, v, hcs, hct, hf''⟩
            · rw [hcs, hct]
              exact ⟨hfound, hafter⟩
            · rw [hcs, hct]
              have hlt : size u < n := by
                have h1 := size_lt_of_next? hs
                have h2 := size_skipSpan_le s'
                have h3 := size_openBody_ok hs''
                have h4 := size_afterSpan_le s''
                have h5 := size_lt_of_accept? hcs
                omega
              exact F.appendPair hfound (ih _ hlt (F.extend hb hfound) hf'' rfl)
          · rw [hs'', ht'']
            exact ⟨hearly, hf'⟩
        · rw [if_neg hx, if_neg hx]
          exact ⟨F.empty hb, h⟩
      · rw [commonTables_of_idle env isRecursive b hsi, commonTables_of_idle env' isRecursive c hti]
        exact ⟨F.empty hb, h⟩

/-- The `WITH` in front, related on both sides, is what entitles the clause to bind names. -/
theorem withClause_rel {w w' : Token} (hE : EnvRel rel F env env') (hw : rel w w')
    (hk : w.keyword? = some .WITH) (hb : F.bound b c) (h : Follows rel s t) :
    PairRel rel F b c (withClause env b s) (withClause env' c t) := by
  unfold withClause
  rcases acceptKeyword?_follows (· == .RECURSIVE) h with ⟨hs, ht⟩ | ⟨s', t', hs, ht, hf⟩
  · rw [hs, ht]
    exact commonTables_rel hE hw hk false hb h
  · rw [hs, ht]
    exact commonTables_rel hE hw hk true hb hf

/-- Openings with related findings, of one type, behind which the sources follow each other. -/
structure OpeningRel (rel : Token → Token → Prop) (F : FindingsRel) (b c : List String)
    (o : Opening σ) (o' : Opening τ) : Prop where
  found : F.found b c o.found o'.found
  type : o.type = o'.type
  rest : Follows rel o.rest o'.rest

/-- The clauses of both runs and the command behind them. No bound name has a say in where a clause ends. -/
theorem opening_rel (hE : EnvRel rel F env env') (hb : F.bound b c) (h : Follows rel s t) :
    OpeningRel rel F b c (opening env b s) (opening env' c t) := by
  generalize hn : size s = n
  induction n using Nat.strongRecOn generalizing s t b c with
  | ind n ih =>
      rcases follows_cases h with ⟨x, y, s', t', hs, ht, hr, hf⟩ | ⟨hsi, hti⟩
      · have hlike := LikeTokens.like hr
        rw [opening_eq env b s, opening_eq env' c t, hs, ht]
        simp only [hlike.keyword?, hlike.sym '(', startsParenthesizedQuery_follows h]
        split
        · next hk =>
            -- A clause is followed by another opening, which sees the names that it bound.
            have hclause := withClause_rel hE hr (hlike.keyword?.trans hk) hb hf
            have hlt : size (withClause env b s').2 < n :=
              hn ▸ Nat.lt_of_le_of_lt (size_withClause_le env b s') (size_lt_of_next? hs)
            have hmore := ih _ hlt (F.extend hb hclause.1) hclause.2 rfl
            exact ⟨F.append hclause.1 hmore.found, hmore.type, hmore.rest⟩
        · split
          · exact ⟨F.empty hb, rfl, hf⟩
          · exact ⟨F.empty hb, rfl, h⟩
        · split
          · exact ⟨F.empty hb, rfl, h⟩
          · exact ⟨F.empty hb, rfl, h⟩
      · rw [opening_of_idle env b hsi, opening_of_idle env' c hti]
        exact ⟨F.empty hb, rfl, h⟩

/-! ## The tables of a command -/

/-- The words in front of the object are alike, and so the same kind of object follows. -/
theorem ddlTargets_rel (hE : EnvRel rel F env env') (hb : F.bound b c) (h : Follows rel s t)
    (type : StatementType) :
    PairRel rel F b c (ddlTargets env b type s) (ddlTargets env' c type t) := by
  obtain ⟨hobject, hf⟩ := ddlObject_follows h (type == .truncate)
  unfold ddlTargets
  generalize ddlObject (type == .truncate) s = x at hobject hf ⊢
  generalize ddlObject (type == .truncate) t = y at hobject hf ⊢
  obtain ⟨object, s'⟩ := x
  obtain ⟨object', t'⟩ := y
  obtain rfl : object = object' := hobject
  cases object with
  | table =>
      simp only
      split
      · exact tableNames_rel hE hb hf
      · exact tableName_rel hE hb hf
  | attached => exact tableAfterOn_rel hE hb (skipName_follows (skipKeywords_follows _ hf))
  | other => exact ⟨F.empty hb, hf⟩

/-- The tables that a command names itself. -/
theorem targets_rel (hE : EnvRel rel F env env') (hb : F.bound b c) (h : Follows rel s t)
    (type : StatementType) : PairRel rel F b c (targets env b type s) (targets env' c type t) := by
  cases type with
  | insert | replace => exact tableName_rel hE hb (skipKeywords_follows _ h)
  | update => exact tableList_rel hE hb (skipKeywords_follows _ h)
  | alter | drop | create | truncate => exact ddlTargets_rel hE hb h _
  | select => exact ⟨F.empty hb, skipKeywords_follows _ h⟩
  | delete | unknown => exact ⟨F.empty hb, h⟩

/-! ## Statements and spans -/

/-- A token and the one that is related to it lead to the same thing. Only a `USING` asks how the statements
    differ. -/
theorem clause_rel {x y : Token} (hE : EnvRel rel F env env') (hb : F.bound b c) (hr : rel x y)
    (h : Follows rel s t) : PairRel rel F b c (clause env b x s) (clause env' c y t) := by
  have hlike := LikeTokens.like hr
  unfold clause
  simp only [hlike.sym '(', hlike.keyword?]
  split
  · exact ⟨hE.search _ hb (span_follows h), afterSpan_follows h⟩
  · split
    · next k hk =>
        split
        · exact tableList_rel hE hb h
        · split
          · exact ⟨F.empty hb, skipKeywords_follows _ h⟩
          · -- Only a `USING` asks for the environment.
            have husing : (k == .USING && env.usingTables) = (k == .USING && env'.usingTables) := by
              by_cases hu : k = .USING
              · rw [hE.usingTables hr (hlike.keyword?.trans (hu ▸ hk))]
              · rw [beq_eq_false_iff_ne.mpr hu, Bool.false_and, Bool.false_and]
            have hopen : (acceptSym? '(' s).isNone = (acceptSym? '(' t).isNone := by
              rcases acceptSym?_follows (c := '(') rfl h with ⟨hs, ht⟩ | ⟨_, _, hs, ht, _⟩ <;>
                rw [hs, ht] <;> rfl
            rw [husing, hopen]
            split
            · exact tableList_rel hE hb h
            · exact ⟨F.empty hb, h⟩
    · exact ⟨F.empty hb, h⟩

/-- The rest of a statement. A `;` ends both runs at the same time, since symbols are related to themselves
    only. -/
theorem body_rel (hE : EnvRel rel F env env') (isTop : Bool) (hb : F.bound b c)
    (h : Follows rel s t) : F.found b c (body env isTop b s) (body env' isTop c t) := by
  generalize hn : size s = n
  induction n using Nat.strongRecOn generalizing s t b c with
  | ind n ih =>
      rcases follows_cases h with ⟨x, y, s', t', hs, ht, hr, hf⟩ | ⟨hsi, hti⟩
      · rw [body_eq env isTop b s, body_eq env' isTop c t, hs, ht]
        simp only [(LikeTokens.like hr).sym ';']
        split
        · exact F.empty hb
        · have hclause := clause_rel hE hb hr hf
          have hlt : size (clause env b x s').2 < n :=
            hn ▸ Nat.lt_of_le_of_lt (size_clause_le env b x s') (size_lt_of_next? hs)
          exact F.append hclause.1 (ih _ hlt (F.extend hb hclause.1) hclause.2 rfl)
      · rw [body_of_idle env isTop b hsi, body_of_idle env' isTop c hti]
        exact F.empty hb

/-- Spans of both runs are searched one after another, each under the names of the ones in front of it. -/
theorem expression_rel (hE : EnvRel rel F env env') (hb : F.bound b c) (h : Follows rel s t) :
    F.found b c (expression env b s) (expression env' c t) := by
  generalize hn : size s = n
  induction n using Nat.strongRecOn generalizing s t b c with
  | ind n ih =>
      rcases follows_cases h with ⟨x, y, s', t', hs, ht, hr, hf⟩ | ⟨hsi, hti⟩
      · have hlt := size_lt_of_next? hs
        rw [expression_eq env b s, expression_eq env' c t, hs, ht]
        simp only [(LikeTokens.like hr).sym '(']
        split
        · have hfound := hE.search .expression hb (span_follows hf)
          have hafter := size_afterSpan_le s'
          exact F.append hfound
            (ih _ (by omega) (F.extend hb hfound) (afterSpan_follows hf) rfl)
        · exact ih _ (by omega) hb hf rfl
      · rw [expression_of_idle env b hsi, expression_of_idle env' c hti]
        exact F.empty hb

/-- The tables of a command and then the rest. -/
theorem afterOpening_rel (hE : EnvRel rel F env env') (isTop : Bool) (hb : F.bound b c)
    (h : Follows rel s t) (type : StatementType) :
    F.found b c (afterOpening env isTop b type s) (afterOpening env' isTop c type t) := by
  have hnamed := targets_rel hE hb h type
  exact F.append hnamed.1 (body_rel hE isTop (F.extend hb hnamed.1) hnamed.2)

/-- A query inside of parentheses, from its opening on. -/
theorem query_rel (hE : EnvRel rel F env env') (hb : F.bound b c) (h : Follows rel s t) :
    F.found b c (query env b s) (query env' c t) := by
  have hstart := opening_rel hE hb h
  unfold query
  simp only
  rw [hstart.type]
  exact F.append hstart.found
    (afterOpening_rel hE false (F.extend hb hstart.found) hstart.rest _)

/-- Whether a span is a query is the same on both sides, and otherwise its place decides. -/
theorem span_rel (hE : EnvRel rel F env env') (place : Place) (hb : F.bound b c)
    (h : Follows rel s t) : F.found b c (span env place b s) (span env' place c t) := by
  unfold span
  rw [startsQuery_follows h]
  split
  · exact query_rel hE hb h
  · cases place with
    | expression => exact expression_rel hE hb h
    | tableList =>
        have hlist := tableList_rel hE hb h
        exact F.append hlist.1 (body_rel hE false (F.extend hb hlist.1) hlist.2)

/-! ## Depths and whole statements -/

/-- One more level of parentheses on both sides keeps environments related. -/
theorem EnvRel.nested {lower lower' u u' : Bool} {m n : Nat}
    (h : EnvRel rel F (Env.nested (σ := σ) lower u m) (Env.nested (σ := τ) lower' u' n))
    (depth : Nat) :
    EnvRel rel F (Env.nested (σ := σ) lower u (m + depth))
      (Env.nested (σ := τ) lower' u' (n + depth)) := by
  induction depth with
  | zero => exact h
  | succ depth ih =>
      rw [← Nat.add_assoc, ← Nat.add_assoc, nested_succ, nested_succ]
      -- Only the search of spans looks one level further down.
      exact
        { usingTables := ih.usingTables
          record := ih.record
          names := ih.names
          search := fun place hb hf => span_rel ih place hb hf }

/-- Environments that are related where no span is searched are related at every depth. -/
theorem EnvRel.lift {lower lower' u u' : Bool}
    (h : EnvRel rel F (Env.nested (σ := σ) lower u 0) (Env.nested (σ := τ) lower' u' 0))
    (depth : Nat) :
    EnvRel rel F (Env.nested (σ := σ) lower u depth) (Env.nested (σ := τ) lower' u' depth) := by
  have hnested := h.nested depth
  rw [Nat.zero_add] at hnested
  exact hnested

/-- Whole statements: the type is the same, and the references are those of related findings. -/
theorem extract_rel {o o' : Options} {held held' : StatementType} (hheld : held = held')
    (hE : ∀ type : StatementType,
      EnvRel rel F (Env.nested (σ := σ) o.lowerCaseNames (type == .delete) o.maxDepth)
        (Env.nested (σ := τ) o'.lowerCaseNames (type == .delete) o'.maxDepth))
    (hb : F.bound [] []) (h : Follows rel s t) :
    (extract o held s).1 = (extract o' held' t).1 ∧
      ∃ f g, F.found [] [] f g ∧ (extract o held s).2 = f.references ∧
        (extract o' held' t).2 = g.references := by
  subst hheld
  have hstart := opening_rel (hE held) hb h
  unfold extract
  simp only
  rw [hstart.type]
  refine ⟨rfl, _, _, F.append hstart.found ?_, rfl, rfl⟩
  exact afterOpening_rel (hE _) true (F.extend hb hstart.found) hstart.rest _

end SqlTables
