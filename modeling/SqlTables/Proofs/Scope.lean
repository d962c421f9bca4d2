import SqlTables.Proofs.Depth

/-!
# `SqlTables.Proofs.Scope` — how far a bound name reaches

The names of one statement are kept in one list, and a span in parentheses that binds names leaves them
there: they reach beyond the span, up to the end of the statement. What a span adds to the list depends on
its own tokens only, and behind the span the added names hide the unqualified references of these names,
and nothing else.

Against that stands the reading in which every span takes its names back at its end. It finds everything
the statement yields, and beyond that only references to a name that is bound somewhere in it.

## Contents
- **`exists_token_of_mem_bound`**: a span binds names that it writes itself.
- **`HidesBehind`** and **`hidesBehind_of_hiding`**: the same part read behind further names.
- **`Env.scoped`** and **`scopedReferences`**: the reading in which spans take their names back.
- **`search_bound`**: what a span binds and what this changes.
-/

namespace SqlTables

open TokenSource

/-! ## The names of a span -/

/-- The same token on both sides, which is one of these. -/
def Among (ts : List Token) (t u : Token) : Prop := t = u ∧ t ∈ ts

instance (ts : List Token) : LikeTokens (Among ts) where
  like := by
    rintro t u ⟨rfl, _⟩
    exact .rfl

/-- Every name that the left side binds is of a kind. -/
def FindingsRel.binding (kind : String → Prop) : FindingsRel where
  bound _ _ := True
  found _ _ f _ := ∀ name ∈ f.bound, kind name
  empty _ := List.forall_mem_nil _
  append hf hf' := List.forall_mem_append.mpr ⟨hf, hf'⟩
  extend _ _ := trivial

section

variable {σ : Type} [TokenSource σ] [LawfulSource σ]

/-- Every name that a level binds is an identifier of the tokens. -/
theorem envRel_binding (ts : List Token) (lower usingTables : Bool) (depth : Nat) :
    EnvRel (Among ts) (.binding fun name => ∃ t ∈ ts, t.isIdentifier = true ∧ t.name lower = name)
      (Env.nested (σ := σ) lower usingTables depth) (Env.nested (σ := σ) lower usingTables depth) := by
  have hbase : EnvRel (Among ts)
      (.binding fun name => ∃ t ∈ ts, t.isIdentifier = true ∧ t.name lower = name)
      (Env.nested (σ := σ) lower usingTables 0) (Env.nested (σ := σ) lower usingTables 0) :=
    { usingTables := fun _ _ => rfl
      record := by
        intro b c n m _ _ name hname
        rw [Env.bound_record] at hname
        cases hname
      names := by
        rintro w w' b c t u _ _ _ ⟨⟨_, hmem⟩, hid⟩ name hname
        exact ⟨t, hmem, hid, (List.mem_singleton.mp hname).symm⟩
      search := fun _ _ _ => List.forall_mem_nil _ }
  exact hbase.lift depth

/-- A name that a span binds is one of its own identifiers. -/
theorem exists_token_of_mem_bound (lower usingTables : Bool) (depth : Nat) (place : Place)
    (b : List String) (s : σ) {name : String}
    (h : name ∈ ((Env.nested lower usingTables depth : Env σ).search place b s).bound) :
    ∃ t ∈ tokens s, t.isIdentifier = true ∧ t.name lower = name :=
  (envRel_binding (tokens s) lower usingTables depth).search (b := b) (c := b) place trivial
    (follows_self fun _ ht => ⟨rfl, ht⟩) name h

/-! ## What is read behind further names -/

/-- Both bind the same names, and the first one lacks the references that `own` hides. -/
def HidesBehind (own : List String) (f g : Findings) : Prop :=
  f.bound = g.bound ∧ f.references = visible own g.references

theorem visible_comm (names own : List String) (references : List TableReference) :
    visible names (visible own references) = visible own (visible names references) :=
  List.filter_comm _ _ references

/-- What further names hide does not depend on the names in front of them. -/
theorem HidesBehind.of_append {names own : List String} {f g h : Findings}
    (hf : HidesBehind (names ++ own) f h) (hg : HidesBehind names g h) : HidesBehind own f g := by
  refine ⟨hf.1.trans hg.1.symm, ?_⟩
  rw [hf.2, hg.2, visible_visible, visible_comm]

section

variable (lower usingTables : Bool) (depth : Nat) (names own : List String) (s : σ)

/-- In a body further names hide what is found without them, and nothing else changes. -/
theorem body_hidesBehind (isTop : Bool) :
    let env : Env σ := .nested lower usingTables depth
    HidesBehind own (body env isTop (names ++ own) s) (body env isTop names s) := by
  intro env
  have hhides : ∀ more, HidesBehind more (body env isTop more s) (body env isTop [] s) :=
    fun more => body_rel (envRel_hiding more _ _ _) isTop (List.append_nil more).symm
      (follows_refl _)
  exact (hhides _).of_append (hhides names)

/-- In an expression further names hide what is found without them. -/
theorem expression_hidesBehind :
    let env : Env σ := .nested lower usingTables depth
    HidesBehind own (expression env (names ++ own) s) (expression env names s) := by
  intro env
  have hhides : ∀ more, HidesBehind more (expression env more s) (expression env [] s) :=
    fun more => expression_rel (envRel_hiding more _ _ _) (List.append_nil more).symm
      (follows_refl _)
  exact (hhides _).of_append (hhides names)

/-- In a list further names hide what is found without them. -/
theorem tableList_hidesBehind :
    let env : Env σ := .nested lower usingTables depth
    HidesBehind own (tableList env (names ++ own) s).1 (tableList env names s).1 := by
  intro env
  have hhides : ∀ more, HidesBehind more (tableList env more s).1 (tableList env [] s).1 :=
    fun more => (tableList_rel (envRel_hiding more _ _ _) (List.append_nil more).symm
      (follows_refl _)).1
  exact (hhides _).of_append (hhides names)

/-- In a `WITH` clause further names hide what is found without them. -/
theorem withClause_hidesBehind :
    let env : Env σ := .nested lower usingTables depth
    HidesBehind own (withClause env (names ++ own) s).1 (withClause env names s).1 := by
  intro env
  have hword : (Token.word (ascii "WITH")).keyword? = some .WITH := by decide
  have hhides : ∀ more, HidesBehind more (withClause env more s).1 (withClause env [] s).1 :=
    fun more => (withClause_rel (envRel_hiding more _ _ _) rfl hword (List.append_nil more).symm
      (follows_refl _)).1
  exact (hhides _).of_append (hhides names)

end

end

/-! ## Spans that take their names back -/

/-- The references alone. -/
def Findings.release (f : Findings) : Findings := ⟨f.references, []⟩

/-- Reading as `Env.nested` does, except that a span takes the names that it binds back at its end. -/
def Env.scoped {σ : Type} [TokenSource σ] (lower usingTables : Bool) : (depth : Nat) → Env σ
  | 0 => .nested lower usingTables 0
  | depth + 1 =>
      { lower, usingTables
        search := fun place bound s =>
          (span (Env.scoped lower usingTables depth) place bound s).release }

/-- What a statement contributes whose spans take their names back. -/
def scopedStatement (options : Options) (text : Bytes) : Findings :=
  let env (type : StatementType) : Env Bytes :=
    .scoped options.lowerCaseNames (type == .delete) options.maxDepth
  contribution env .unknown [] text

/-- The first run binds no more names than the second one and finds all that the second one finds. -/
def FindingsRel.beyond : FindingsRel where
  bound b c := b ⊆ c
  found _ _ f g := f.bound ⊆ g.bound ∧ g.references.Sublist f.references
  empty _ := ⟨List.Subset.refl [], List.Sublist.refl []⟩
  append := by
    rintro b c f g f' g' ⟨hb, hr⟩ ⟨hb', hr'⟩
    refine ⟨?_, hr.append hr'⟩
    exact List.append_subset.mpr ⟨List.subset_append_of_subset_left _ hb,
      List.subset_append_of_subset_right _ hb'⟩
  extend := by
    rintro b c f g hbc ⟨hb, _⟩
    exact List.append_subset.mpr ⟨List.subset_append_of_subset_left _ hbc,
      List.subset_append_of_subset_right _ hb⟩

section

variable {σ : Type} [TokenSource σ] [LawfulSource σ]

/-- A relation in which the first run may leave its names out holds between the two readings at every
    depth. -/
theorem envRel_scoped {F : FindingsRel} {lower usingTables : Bool}
    (hbase : EnvRel Eq F (Env.nested (σ := σ) lower usingTables 0)
      (Env.nested (σ := σ) lower usingTables 0))
    (hrelease : ∀ {b c f g}, F.found b c f g → F.found b c f.release g) (depth : Nat) :
    EnvRel Eq F (Env.scoped (σ := σ) lower usingTables depth)
      (Env.nested (σ := σ) lower usingTables depth) := by
  induction depth with
  | zero => exact hbase
  | succ depth ih =>
      exact
        { usingTables := hbase.usingTables
          record := hbase.record
          names := hbase.names
          search := fun place hb hf => hrelease (span_rel ih place hb hf) }

end

/-- A statement whose spans release their names is related to the statement as it is read, in any relation
    that stays when the first run releases names. -/
theorem scopedStatement_rel {F : FindingsRel} {options : Options}
    (hbase : ∀ usingTables, EnvRel Eq F
      (Env.nested (σ := Bytes) options.lowerCaseNames usingTables 0)
      (Env.nested (σ := Bytes) options.lowerCaseNames usingTables 0))
    (hrelease : ∀ {b c f g}, F.found b c f g → F.found b c f.release g) (hb : F.bound [] [])
    (text : Bytes) :
    F.found [] [] (scopedStatement options text) (statement options .unknown [] text) := by
  have hE : ∀ type : StatementType, EnvRel Eq F
      (Env.scoped (σ := Bytes) options.lowerCaseNames (type == .delete) options.maxDepth)
      (.outer options type) := fun type => envRel_scoped (hbase _) hrelease _
  unfold scopedStatement
  show F.found [] [] _ (contribution (.outer options) .unknown [] text)
  exact contribution_rel (hE .unknown) (hE _) hb (follows_refl _)

/-- A level that binds fewer names finds all that one with more of them finds. -/
theorem envRel_beyond (lower usingTables : Bool) :
    EnvRel Eq .beyond (Env.nested (σ := Bytes) lower usingTables 0)
      (Env.nested (σ := Bytes) lower usingTables 0) where
  usingTables _ _ := rfl
  record := by
    rintro b c n m hbc hname
    obtain rfl := hname.eq id
    refine ⟨?_, ?_⟩
    · rw [Env.bound_record]
      exact List.nil_subset _
    · rw [references_record, references_record]
      exact visible_sublist_of_subset hbc _
  names := by
    rintro w w' b c t u _ _ _ htu
    rw [htu.1]
    exact ⟨List.Subset.refl _, List.Sublist.refl _⟩
  search _ _ _ := ⟨List.Subset.refl _, List.Sublist.refl _⟩

/-- Nothing is lost by taking the names back. -/
theorem parse_sublist_scopedStatement (options : Options) (text : Bytes) :
    (parse options text).references.Sublist (scopedStatement options text).references := by
  have hrelease : ∀ {b c f g}, FindingsRel.beyond.found b c f g →
      FindingsRel.beyond.found b c f.release g := by
    rintro b c f g ⟨_, hr⟩
    exact ⟨List.nil_subset _, hr⟩
  rw [parse_eq_statement]
  exact (scopedStatement_rel (envRel_beyond _) hrelease (List.Subset.refl []) text).2

/-- What is gained by taking the names back is hidden by one of the names of the statement. -/
theorem visible_scopedStatement_sublist (options : Options) (text : Bytes) :
    (visible (boundNames options text) (scopedStatement options text).references).Sublist
      (parse options text).references := by
  have hrelease : ∀ {b c f g}, (FindingsRel.within (boundNames options text)).found b c f g →
      (FindingsRel.within (boundNames options text)).found b c f.release g := by
    rintro b c f g ⟨_, hr⟩
    exact ⟨List.nil_subset _, hr⟩
  have hbase : ∀ usingTables, EnvRel Eq (.within (boundNames options text))
      (Env.nested (σ := Bytes) options.lowerCaseNames usingTables 0)
      (Env.nested (σ := Bytes) options.lowerCaseNames usingTables 0) :=
    fun usingTables => envRel_within _ _ usingTables (Nat.le_refl 0)
  have hfound := scopedStatement_rel hbase hrelease (List.Subset.refl []) text
  rw [parse_eq_statement]
  exact hfound.2 (List.Subset.refl _)

/-! ## How far the names of a span reach -/

/-- **The names of a span.** Behind a span the names bound in front of it are still bound, and with them
    those of the span: identifiers that it writes itself, which do not depend on the names in front of
    it, and none if it has no `WITH`. They reach over the rest of the level around the span, whatever
    reads it, and hide the unqualified references to them there and nothing else. So a statement yields
    what it would if every span took its names back, in the same order, apart from references that a
    name of the statement hides. -/
theorem search_bound (options : Options) (usingTables : Bool) (depth : Nat) (place : Place)
    (inside : Bytes) :
    let env : Env Bytes := .nested options.lowerCaseNames usingTables depth
    let own := (env.search place [] inside).bound
    (∀ names, (env.search place names inside).bound = own) ∧
      (∀ name ∈ own, ∃ t ∈ inside.tokens, t.isIdentifier = true ∧
        t.name options.lowerCaseNames = name) ∧
      ((∀ t ∈ inside.tokens, t.keyword? ≠ some .WITH) → own = []) ∧
      (∀ (names : List String) (rest : Bytes),
        (∀ isTop, HidesBehind own (body env isTop (names ++ own) rest) (body env isTop names rest)) ∧
        HidesBehind own (expression env (names ++ own) rest) (expression env names rest) ∧
        HidesBehind own (tableList env (names ++ own) rest).1 (tableList env names rest).1 ∧
        HidesBehind own (withClause env (names ++ own) rest).1 (withClause env names rest).1) ∧
      ∀ text, (parse options text).references.Sublist (scopedStatement options text).references ∧
        (visible (boundNames options text) (scopedStatement options text).references).Sublist
          (parse options text).references := by
  intro env own
  rw [← tokens_bytes]
  refine ⟨?_, ?_, ?_, ?_, ?_⟩
  · intro names
    exact (search_hiding names _ _ _ place inside).1
  · intro name hname
    exact exists_token_of_mem_bound _ _ _ place [] inside hname
  · intro hplain
    exact bound_search hplain _ _ _ place []
  · intro names rest
    exact ⟨body_hidesBehind _ _ _ names own rest, expression_hidesBehind _ _ _ names own rest,
      tableList_hidesBehind _ _ _ names own rest, withClause_hidesBehind _ _ _ names own rest⟩
  · intro text
    exact ⟨parse_sublist_scopedStatement options text, visible_scopedStatement_sublist options text⟩

/-- The first span binds `a`, behind which the condition still finds `c.a` and loses `a` alone; the
    second one has no `WITH` and binds nothing. -/
theorem search_bound_condition :
    let inside := ascii "WITH a AS (SELECT 1 FROM b) SELECT 1 FROM a"
    let rest := ascii "WHERE EXISTS (SELECT 1 FROM A, c.a, d)"
    let text := ascii "SELECT 1 FROM (" ++ inside ++ ascii ") x " ++ rest
    let env : Env Bytes := .nested false false 2
    (env.search .tableList ["d"] inside).bound = ["a"] ∧
      HidesBehind ["a"] (body env true ["d", "a"] rest) (body env true ["d"] rest) ∧
      (body env true ["d", "a"] rest).references = [⟨some "c", "a"⟩] ∧
      (∀ t ∈ (ascii "SELECT 1 FROM A").tokens, t.keyword? ≠ some .WITH) ∧
      (env.search .tableList [] (ascii "SELECT 1 FROM A")).bound = [] ∧
      (parse {} text).references.Sublist (scopedStatement {} text).references := by
  intro inside rest text env
  have hown : (env.search .tableList [] inside).bound = ["a"] := by decide +kernel
  obtain ⟨hbound, _, _, hbehind, hscoped⟩ := search_bound {} false 2 .tableList inside
  have hplain : ∀ t ∈ (ascii "SELECT 1 FROM A").tokens, t.keyword? ≠ some .WITH := by
    decide +kernel
  refine ⟨?_, ?_, ?_, hplain, ?_, (hscoped text).1⟩
  · exact (hbound ["d"]).trans hown
  · have hhides := (hbehind ["d"] rest).1 true
    simp only at hhides
    rw [hown] at hhides
    exact hhides
  · decide +kernel
  · exact (search_bound {} false 2 .tableList (ascii "SELECT 1 FROM A")).2.2.1 hplain

/-- A span keeps its names bound: behind it they hide a table of the statement around it. -/
theorem span_hides_behind :
    let inside := ascii "WITH a AS (SELECT 1 FROM b) SELECT 1 FROM a"
    let text := ascii "SELECT 1 FROM (" ++ inside ++ ascii ") x, a"
    ((Env.outer {} .select).search .tableList [] inside).bound = ["a"] ∧
      (scopedStatement {} text).references = [⟨none, "b"⟩, ⟨none, "a"⟩] ∧
      (parse {} text).references = [⟨none, "b"⟩] := by
  refine ⟨?_, ?_, ?_⟩
  · decide +kernel
  · decide +kernel
  · decide +kernel

end SqlTables
