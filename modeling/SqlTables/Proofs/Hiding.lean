import SqlTables.Proofs.Statement

/-!
# `SqlTables.Proofs.Hiding` — bound names only hide references

A name that is bound before a part of a statement is read hides the unqualified references of that part to
a table of this name, and does nothing else: the part is read in the same way, finds the same otherwise
and binds the same names itself.

## Contents
- **`visible`**: the references that no name hides.
- **`FindingsRel.hiding`** and **`envRel_hiding`**: two runs, one of which starts with more names.
- **`search_hiding`**, **`statement_hiding`**: a span and a statement behind bound names.
- **`bound_search`**: a span without `WITH` binds no name.
-/

namespace SqlTables

open TokenSource

/-! ## References that no name hides -/

/-- The references that stay where these names are common tables. A qualified one always does. -/
def visible (names : List String) (references : List TableReference) : List TableReference :=
  references.filter fun r => r.schema.isSome || !hides names r.table

variable {names more : List String} {references rest : List TableReference}

/-- Where no name is bound every reference stays. -/
theorem visible_nil (references : List TableReference) : visible [] references = references :=
  List.filter_eq_self.mpr fun r _ => Bool.or_true r.schema.isSome

theorem visible_append (names : List String) (references rest : List TableReference) :
    visible names (references ++ rest) = visible names references ++ visible names rest :=
  List.filter_append _ _

/-- A reference is hidden if it has no schema and its table is a bound name. -/
theorem visible_single {r : TableReference} :
    visible names [r] = if r.schema.isNone && hides names r.table then [] else [r] := by
  obtain ⟨schema, table⟩ := r
  cases schema with
  | none => cases h : hides names table <;> simp [visible, h]
  | some schema => simp [visible]

/-- More names hide more. -/
theorem hides_of_subset (h : names ⊆ more) {table : String} (ht : hides names table = true) :
    hides more table = true := by
  obtain ⟨name, hname, hsame⟩ := List.any_eq_true.mp ht
  exact List.any_eq_true.mpr ⟨name, h hname, hsame⟩

/-- Which names are bound counts, not their order. -/
theorem visible_congr (h : ∀ name, name ∈ names ↔ name ∈ more) (references : List TableReference) :
    visible names references = visible more references := by
  have hhides : ∀ table, hides names table = hides more table := fun table => by
    rw [Bool.eq_iff_iff]
    exact ⟨hides_of_subset fun name => (h name).mp, hides_of_subset fun name => (h name).mpr⟩
  simp only [visible, hhides]

/-- The reference that a qualified name writes. -/
def QualifiedName.reference (lower : Bool) (name : QualifiedName) : TableReference :=
  ⟨name.schema.map (Token.name lower), name.table.name lower⟩

/-- A name is recorded as its reference, unless a bound name hides it. -/
theorem references_record {σ : Type} (env : Env σ) (names : List String) (name : QualifiedName) :
    (env.record names name).references = visible names [name.reference env.lower] := by
  rw [visible_single, QualifiedName.reference, Env.record]
  simp only [Option.isNone_map]
  split <;> rfl

/-! ## Two runs -/

/-- The first run starts with `names` bound, and misses nothing but what they hide. -/
def FindingsRel.hiding (names : List String) : FindingsRel where
  bound b c := b = names ++ c
  found _ _ f g := f.bound = g.bound ∧ f.references = visible names g.references
  empty _ := ⟨rfl, rfl⟩
  append := by
    rintro b c f g f' g' ⟨hb, hr⟩ ⟨hb', hr'⟩
    refine ⟨?_, ?_⟩
    · rw [Findings.bound_append, Findings.bound_append, hb, hb']
    · rw [Findings.references_append, Findings.references_append, visible_append, hr, hr']
  extend := by
    rintro b c f g rfl ⟨hb, _⟩
    rw [hb, List.append_assoc]

/-- Names may hide in two steps. -/
theorem visible_visible (names more : List String) (references : List TableReference) :
    visible (names ++ more) references = visible names (visible more references) := by
  unfold visible
  rw [List.filter_filter]
  congr 1
  funext r
  rw [hides_append]
  cases r.schema.isSome <;> cases hides names r.table <;> cases hides more r.table <;> rfl

variable {σ τ : Type} [TokenSource σ] [TokenSource τ] [LawfulSource σ] [LawfulSource τ]

/-- Names that are bound outside hide references at every level, and change nothing else. -/
theorem envRel_hiding (names : List String) (lower usingTables : Bool) (depth : Nat) :
    EnvRel Eq (.hiding names) (Env.nested (σ := σ) lower usingTables depth)
      (Env.nested (σ := τ) lower usingTables depth) := by
  have hbase : EnvRel Eq (.hiding names) (Env.nested (σ := σ) lower usingTables 0)
      (Env.nested (σ := τ) lower usingTables 0) :=
    { usingTables := fun _ _ => rfl
      record := by
        rintro b c n m rfl hname
        obtain rfl := hname.eq id
        refine ⟨?_, ?_⟩
        · rw [Env.bound_record, Env.bound_record]
        · rw [references_record, references_record, visible_visible]
          rfl
      names := by
        rintro w w' b c t u _ _ _ htu
        rw [htu.1]
        exact ⟨rfl, rfl⟩
      search := fun _ _ _ => ⟨rfl, rfl⟩ }
  exact hbase.lift depth

/-- Behind bound names a span yields what they do not hide, and binds what it binds without them. -/
theorem search_hiding (names : List String) (lower usingTables : Bool) (depth : Nat) (place : Place)
    (s : σ) :
    let env : Env σ := .nested lower usingTables depth
    (env.search place names s).bound = (env.search place [] s).bound ∧
      (env.search place names s).references = visible names (env.search place [] s).references := by
  exact (envRel_hiding names lower usingTables depth).search place (List.append_nil names).symm
    (follows_refl s)

/-- Behind bound names a statement yields what they do not hide. -/
theorem statement_hiding {s : σ} {t : τ} (h : Follows Eq s t) (options : Options)
    (held : StatementType) (names : List String) :
    (statement options held names s).references =
      visible names (statement options held [] t).references := by
  have hE : ∀ type : StatementType, EnvRel Eq (.hiding names) (.outer options type : Env σ)
      (.outer options type : Env τ) := fun type => envRel_hiding names _ _ _
  have hfound := statement_rel (hE held) (hE _) (List.append_nil names).symm h
  exact hfound.2

/-! ## Spans that bind no name -/

/-- Nothing is bound on the left side. -/
def FindingsRel.unbound : FindingsRel where
  bound _ _ := True
  found _ _ f _ := f.bound = []
  empty _ := rfl
  append := by
    rintro b c f g f' g' hf hf'
    rw [Findings.bound_append, hf, hf']
    rfl
  extend _ _ := trivial

/-- Without a `WITH` no level binds a name. -/
theorem envRel_unbound (lower usingTables : Bool) (depth : Nat) :
    EnvRel (Without .WITH) .unbound (Env.nested (σ := σ) lower usingTables depth)
      (Env.nested (σ := σ) lower usingTables depth) := by
  have hbase : EnvRel (Without .WITH) .unbound (Env.nested (σ := σ) lower usingTables 0)
      (Env.nested (σ := σ) lower usingTables 0) :=
    { usingTables := fun _ _ => rfl
      record := fun {b} _ n _ _ _ => Env.bound_record _ b n
      names := by
        rintro w w' b c t u ⟨_, hne⟩ hw
        exact absurd hw hne
      search := fun _ _ _ => rfl }
  exact hbase.lift depth

theorem bound_search {s : σ} (h : ∀ t ∈ tokens s, t.keyword? ≠ some .WITH) (lower usingTables : Bool)
    (depth : Nat) (place : Place) (b : List String) :
    ((Env.nested lower usingTables depth : Env σ).search place b s).bound = [] :=
  (envRel_unbound lower usingTables depth).search (b := b) (c := b) place trivial (follows_without h)

end SqlTables
