import SqlTables.Proofs.Simulation

/-!
# `SqlTables.Proofs.Statement` — what a whole statement contributes

A statement is taken apart into its command, which only the tokens decide, and its findings. What is found
never steers the reading: under whatever environment and whatever bound names, a `WITH` clause ends at
the same place and the same command follows it.

## Contents
- **`rest_commonTables`**, **`rest_withClause`**: where a clause ends.
- **`command`** and **`opening_alike`**: the command of a statement and what follows it.
- **`contribution`**, **`statement`** and **`extract_eq_statement`**: the findings of a statement, with
  names bound before it.
- **`contribution_rel`** and **`statement_rel`**: the findings of two runs.
-/

namespace SqlTables

open TokenSource

variable {σ τ : Type} [TokenSource σ] [TokenSource τ]

/-! ## Where a clause ends -/

/-- What is left behind definitions depends neither on the level nor on the names that are bound. -/
theorem rest_commonTables (env env' : Env σ) (isRecursive : Bool) (b c : List String) (s : σ) :
    (commonTables env isRecursive b s).2 = (commonTables env' isRecursive c s).2 := by
  fun_induction commonTables env isRecursive b s generalizing c with
  | case1 b s h => rw [commonTables_eq env', h]
  | case2 b s t rest h hi name early stop hb =>
      rw [commonTables_eq env', h]
      simp only
      rw [if_pos hi, hb]
  | case3 b s t rest h hi name early late inside hb found hc =>
      rw [commonTables_eq env', h]
      simp only
      rw [if_pos hi, hb]
      simp only
      rw [hc]
  | case4 b s t rest h hi name early late inside hb found next hc more ih =>
      rw [commonTables_eq env', h]
      simp only
      rw [if_pos hi, hb]
      simp only
      rw [hc]
      exact ih _
  | case5 b s t rest h hi =>
      rw [commonTables_eq env', h]
      simp only
      rw [if_neg hi]

theorem rest_withClause (env env' : Env σ) (b c : List String) (s : σ) :
    (withClause env b s).2 = (withClause env' c s).2 := by
  unfold withClause
  split
  · exact rest_commonTables env env' true b c _
  · exact rest_commonTables env env' false b c s

/-! ## The command -/

/-- An environment in which no span is searched. -/
def Env.blind : Env σ := .nested false false 0

/-- The command of a statement, behind its `WITH` clauses. -/
def command (s : σ) : StatementType := (opening (.blind : Env σ) [] s).type

/-- Whatever is found and bound, a statement opens in the same way. -/
theorem opening_alike (env env' : Env σ) (b c : List String) (s : σ) :
    (opening env b s).type = (opening env' c s).type ∧
      (opening env b s).rest = (opening env' c s).rest := by
  fun_induction opening env b s generalizing c with
  | case1 b s h =>
      rw [opening_eq env', h]
      exact ⟨rfl, rfl⟩
  | case2 b s t rest h hk clause more ih =>
      rw [opening_eq env', h]
      simp only [hk]
      -- Both clauses end at the same place, behind which the next opening starts.
      rw [← rest_withClause env env' b c rest]
      exact ih _
  | case3 b s t rest h k hw hk type ht =>
      rw [opening_eq env', h]
      simp only [hk, ht, and_self]
  | case4 b s t rest h k hw hk ht =>
      rw [opening_eq env', h]
      simp only [hk, ht, and_self]
  | case5 b s t rest h hk hq =>
      rw [opening_eq env', h]
      simp only [hk]
      rw [if_pos hq]
      exact ⟨rfl, rfl⟩
  | case6 b s t rest h hk hq =>
      rw [opening_eq env', h]
      simp only [hk]
      rw [if_neg hq]
      exact ⟨rfl, rfl⟩

theorem type_opening (env env' : Env σ) (b c : List String) (s : σ) :
    (opening env b s).type = (opening env' c s).type := (opening_alike env env' b c s).1

theorem rest_opening (env env' : Env σ) (b c : List String) (s : σ) :
    (opening env b s).rest = (opening env' c s).rest := (opening_alike env env' b c s).2

/-- The command of a statement is the one that its opening has at any level. -/
theorem type_opening_eq_command (env : Env σ) (b : List String) (s : σ) :
    (opening env b s).type = command s := type_opening env .blind b [] s

/-! ## The findings of a statement -/

/-- How a statement of a type is read outside parentheses. -/
def Env.outer (options : Options) (type : StatementType) : Env σ :=
  .nested options.lowerCaseNames (type == .delete) options.maxDepth

theorem lower_outer (options : Options) (type : StatementType) :
    (Env.outer options type : Env σ).lower = options.lowerCaseNames := lower_nested _ _ _

/-- What a statement contributes under an environment for each type, where the type `held` is known
    before it and `bound` names are common tables already. -/
def contribution (env : StatementType → Env σ) (held : StatementType) (bound : List String) (s : σ) :
    Findings :=
  let start := opening (env held) bound s
  start.found ++ afterOpening (env (held.orElse start.type)) true (bound ++ start.found.bound)
    start.type start.rest

/-- What a statement contributes where the type `held` is known before it and `bound` names are common
    tables already. -/
def statement (options : Options) (held : StatementType) (bound : List String) (s : σ) : Findings :=
  let start := opening (.outer options held) bound s
  start.found ++ afterOpening (.outer options (held.orElse start.type)) true
    (bound ++ start.found.bound) start.type start.rest

/-- The type of a statement is its command, unless one is known, and its references are found under no
    name that was bound before it. -/
theorem extract_eq_statement (options : Options) (held : StatementType) (s : σ) :
    extract options held s =
      (held.orElse (command s), (statement options held [] s).references) := by
  rw [← type_opening_eq_command (.outer options held) [] s]
  rfl

/-- A summary consists of the command and the references of a statement. -/
theorem parse_eq_statement (options : Options) (text : Bytes) :
    parse options text =
      { type := command text, references := (statement options .unknown [] text).references } := by
  rw [parse, Summary.read, extract_eq_statement]
  rfl

/-! ## Two runs -/

/-- Nothing is asked of what both runs find. -/
def FindingsRel.any : FindingsRel where
  bound _ _ := True
  found _ _ _ _ := True
  empty _ := trivial
  append _ _ := trivial
  extend _ _ := trivial

variable {rel : Token → Token → Prop} {F : FindingsRel} {o o' : Options}
  {held held' : StatementType} {b c : List String} {s : σ} {t : τ}

section

variable [LikeTokens rel] [LawfulSource σ] [LawfulSource τ]

/-- Sources that follow each other have the same command. -/
theorem command_follows (h : Follows rel s t) : command s = command t := by
  have hE : EnvRel rel .any (.blind : Env σ) (.blind : Env τ) :=
    { usingTables := fun _ _ => rfl
      record := fun _ _ => trivial
      names := fun _ _ _ _ => trivial
      search := fun _ _ _ => trivial }
  have hopening : OpeningRel rel .any [] [] (opening (.blind : Env σ) [] s)
      (opening (.blind : Env τ) [] t) := opening_rel hE trivial h
  exact hopening.type

/-- Two runs of a statement contribute related things, if their environments are related in front of
    the command and behind it. -/
theorem contribution_rel {env : StatementType → Env σ} {env' : StatementType → Env τ}
    (hfront : EnvRel rel F (env held) (env' held'))
    (hbehind : EnvRel rel F (env (held.orElse (command s))) (env' (held'.orElse (command s))))
    (hb : F.bound b c) (h : Follows rel s t) :
    F.found b c (contribution env held b s) (contribution env' held' c t) := by
  have hstart := opening_rel hfront hb h
  have hbound := F.extend hb hstart.found
  unfold contribution
  simp only
  rw [type_opening_eq_command, type_opening_eq_command, ← command_follows h]
  exact F.append hstart.found (afterOpening_rel hbehind true hbound hstart.rest _)

/-- Statements that follow each other have related findings, if the levels are related before the opening and
    behind it. -/
theorem statement_rel (hfront : EnvRel rel F (.outer o held : Env σ) (.outer o' held' : Env τ))
    (hbehind : EnvRel rel F (.outer o (held.orElse (command s)) : Env σ)
      (.outer o' (held'.orElse (command s)) : Env τ))
    (hb : F.bound b c) (h : Follows rel s t) :
    F.found b c (statement o held b s) (statement o' held' c t) := by
  change F.found b c (contribution (.outer o) held b s) (contribution (.outer o') held' c t)
  exact contribution_rel hfront hbehind hb h

end

/-! ## Runs on the same tokens -/

/-- The same token on both sides, which is not this keyword. -/
def Without (k : Keyword) (t u : Token) : Prop := t = u ∧ t.keyword? ≠ some k

instance (k : Keyword) : LikeTokens (Without k) where
  like := by
    rintro t u ⟨rfl, _⟩
    exact .rfl

theorem follows_self (hrel : ∀ x ∈ tokens s, rel x x) : Follows rel s s :=
  tracks_of_forall₂ (List.forall₂_same.mpr hrel)

theorem follows_refl (s : σ) : Follows Eq s s := follows_self fun _ _ => rfl

/-- A source without a keyword follows itself without that keyword. -/
theorem follows_without {k : Keyword} (h : ∀ x ∈ tokens s, x.keyword? ≠ some k) :
    Follows (Without k) s s := follows_self fun x hx => ⟨rfl, h x hx⟩

/-- Names of related tokens are equal where tokens are related to themselves only. -/
theorem LikeName.eq (hrel : ∀ {t u}, rel t u → t = u) {n m : QualifiedName}
    (h : LikeName rel n m) : n = m := by
  obtain ⟨schema, table⟩ := n
  obtain ⟨schema', table'⟩ := m
  obtain rfl : table = table' := hrel h.table.1
  rcases h.schema with ⟨rfl, rfl⟩ | ⟨t, u, rfl, rfl, htu⟩
  · rfl
  · rw [hrel htu.1]

end SqlTables
