import SqlTables.Proofs.Depth
import SqlTables.Proofs.LetterCase

/-!
# `SqlTables.Proofs.Folding` — recording names in lower case

A run that records names in lower case reads a statement as a plain run does, and binds the lower-case
forms of the names that the plain run binds. Names that differ outside ASCII only may then be one, so
that a common table hides more references than before; nothing else changes.

## Contents
- **`TableReference.toLower`**: a reference in lower case.
- **`visible_map_toLower_sublist`**: names in lower case hide no less.
- **`FindingsRel.folding`** and **`envRel_folding`**: the two runs.
- **`boundNames_of_without`**: statements that bind no name.
- **`parse_lowerCaseNames`**: whole statements.
-/

namespace SqlTables

open TokenSource

/-! ## References in lower case -/

/-- The reference with its schema and its table in lower case. -/
def TableReference.toLower (r : TableReference) : TableReference :=
  ⟨r.schema.map LowerCase.toLower, LowerCase.toLower r.table⟩

/-- A name written in lower case is the lower-case form of the name that is written. -/
theorem reference_toLower (name : QualifiedName) :
    name.reference true = (name.reference false).toLower := by
  obtain ⟨schema, table⟩ := name
  cases schema <;> rfl

/-- What a name hides, its lower-case form hides in lower case. -/
theorem hides_map_toLower {names : List String} {table : String} (h : hides names table = true) :
    hides (names.map LowerCase.toLower) (LowerCase.toLower table) = true := by
  obtain ⟨name, hname, hsame⟩ := List.any_eq_true.mp h
  refine List.any_eq_true.mpr ⟨LowerCase.toLower name, List.mem_map_of_mem hname, ?_⟩
  rw [LowerCase.toLower_eq_of_sameName hsame]
  exact sameName_self _

/-- In lower case no reference stays that was hidden before. -/
theorem visible_map_toLower_sublist (names : List String) (references : List TableReference) :
    (visible (names.map LowerCase.toLower) (references.map TableReference.toLower)).Sublist
      ((visible names references).map TableReference.toLower) := by
  unfold visible
  rw [List.filter_map]
  refine (List.monotone_filter_right references ?_).map TableReference.toLower
  intro r hr
  obtain ⟨schema, table⟩ := r
  cases schema with
  | some schema => rfl
  | none =>
      simp only [Function.comp_apply, TableReference.toLower, Option.map_none, Option.isSome_none,
        Bool.false_or, Bool.not_eq_true', ← Bool.not_eq_true] at hr ⊢
      exact fun hhidden => hr (hides_map_toLower hhidden)

/-! ## Two runs -/

/-- The first run records in lower case what the second one records as it is written. It finds nothing
    else, and where `names` are all the names of the first run, it misses only what they hide. -/
def FindingsRel.folding (names : List String) : FindingsRel where
  bound b c := b = c.map LowerCase.toLower
  found b _ f g := f.bound = g.bound.map LowerCase.toLower ∧
    f.references.Sublist (g.references.map TableReference.toLower) ∧
    (b ++ f.bound ⊆ names →
      (visible names (g.references.map TableReference.toLower)).Sublist f.references)
  empty _ := ⟨rfl, List.Sublist.refl [], fun _ => List.Sublist.refl []⟩
  append := by
    rintro b c f g f' g' ⟨hb, hr, hv⟩ ⟨hb', hr', hv'⟩
    refine ⟨?_, ?_, ?_⟩
    · rw [Findings.bound_append, Findings.bound_append, hb, hb', List.map_append]
    · rw [Findings.references_append, Findings.references_append, List.map_append]
      exact hr.append hr'
    · intro hall
      rw [Findings.bound_append, ← List.append_assoc] at hall
      rw [Findings.references_append, Findings.references_append, List.map_append, visible_append]
      exact (hv (List.append_subset.mp hall).1).append (hv' hall)
  extend := by
    rintro b c f g rfl ⟨hb, _⟩
    rw [hb, List.map_append]

variable {σ : Type} [TokenSource σ] [LawfulSource σ]

/-- A level that folds letters records the names of the other level with their letters folded. -/
theorem envRel_folding (names : List String) (usingTables : Bool) (depth : Nat) :
    EnvRel Eq (.folding names) (Env.nested (σ := σ) true usingTables depth)
      (Env.nested (σ := σ) false usingTables depth) := by
  have hbase : EnvRel Eq (.folding names) (Env.nested (σ := σ) true usingTables 0)
      (Env.nested (σ := σ) false usingTables 0) :=
    { usingTables := fun _ _ => rfl
      record := by
        rintro b c n m rfl hname
        obtain rfl := hname.eq id
        have hfewer := visible_map_toLower_sublist c [n.reference false]
        rw [List.map_singleton, ← reference_toLower] at hfewer
        refine ⟨?_, ?_, ?_⟩
        · rw [Env.bound_record, Env.bound_record]
          rfl
        · rw [references_record, references_record]
          exact hfewer
        · intro hall
          have hc : c.map LowerCase.toLower ⊆ names := (List.append_subset.mp hall).1
          rw [references_record, references_record]
          -- The plain run records the name or nothing; of the name `names` leave no more than `c` does.
          have hone : ((visible c [n.reference false]).map TableReference.toLower).Sublist
              [n.reference true] := by
            rw [reference_toLower]
            exact List.filter_sublist.map _
          exact (hone.filter _).trans (visible_sublist_of_subset hc _)
      names := by
        rintro w w' b c t u _ _ _ htu
        rw [htu.1]
        exact ⟨rfl, List.Sublist.refl [], fun _ => List.Sublist.refl []⟩
      search := fun _ _ _ => ⟨rfl, List.Sublist.refl [], fun _ => List.Sublist.refl []⟩ }
  exact hbase.lift depth

/-! ## Names that are bound -/

/-- A statement without `WITH` binds no name. -/
theorem boundNames_of_without {text : Bytes} (h : ∀ t ∈ text.tokens, t.keyword? ≠ some .WITH)
    (options : Options) : boundNames options text = [] := by
  have hE : ∀ type : StatementType, EnvRel (Without .WITH) .unbound (.outer options type : Env Bytes)
      (.outer options type : Env Bytes) := fun type => envRel_unbound _ _ _
  rw [← tokens_bytes] at h
  exact statement_rel (hE .unknown) (hE _) (b := []) (c := []) trivial (follows_without h)

/-! ## Whole statements -/

/-- The two runs of a statement, for whatever names. -/
theorem statement_folding (options : Options) (text : Bytes) (names : List String) :
    (FindingsRel.folding names).found [] []
      (statement { options with lowerCaseNames := true } .unknown [] text)
      (statement { options with lowerCaseNames := false } .unknown [] text) := by
  have hE : ∀ type : StatementType, EnvRel Eq (.folding names)
      (.outer { options with lowerCaseNames := true } type : Env Bytes)
      (.outer { options with lowerCaseNames := false } type) := fun type => envRel_folding _ _ _
  exact statement_rel (hE .unknown) (hE _) rfl (follows_refl text)

/-- What is missing in lower case is hidden there by a name that the statement binds. -/
theorem visible_parse_toLower_sublist (options : Options) (text : Bytes) :
    (visible (boundNames { options with lowerCaseNames := true } text)
      ((parse { options with lowerCaseNames := false } text).references.map
        TableReference.toLower)).Sublist
      (parse { options with lowerCaseNames := true } text).references := by
  obtain ⟨_, _, hvisible⟩ := statement_folding options text
    (boundNames { options with lowerCaseNames := true } text)
  rw [parse_eq_statement, parse_eq_statement]
  exact hvisible (List.Subset.refl _)

/-- **Names in lower case.** Recording names in lower case changes no type of a statement. Its references
    are some of those of the plain run in lower case, in the same order, and all of them where the
    statement has no `WITH`. -/
theorem parse_lowerCaseNames (options : Options) (text : Bytes) :
    (parse { options with lowerCaseNames := true } text).type =
        (parse { options with lowerCaseNames := false } text).type ∧
      (parse { options with lowerCaseNames := true } text).references.Sublist
        ((parse { options with lowerCaseNames := false } text).references.map
          TableReference.toLower) ∧
      ((∀ t ∈ text.tokens, t.keyword? ≠ some .WITH) →
        (parse { options with lowerCaseNames := true } text).references =
          (parse { options with lowerCaseNames := false } text).references.map
            TableReference.toLower) := by
  have hsublist : (parse { options with lowerCaseNames := true } text).references.Sublist
      ((parse { options with lowerCaseNames := false } text).references.map
        TableReference.toLower) := by
    obtain ⟨_, hfewer, _⟩ := statement_folding options text []
    rw [parse_eq_statement, parse_eq_statement]
    exact hfewer
  refine ⟨?_, hsublist, ?_⟩
  · rw [parse_eq_statement, parse_eq_statement]
  · -- Without a `WITH` nothing is bound, so nothing is hidden in either run.
    intro hwith
    have hall := visible_parse_toLower_sublist options text
    rw [boundNames_of_without hwith, visible_nil] at hall
    exact hsublist.antisymm hall

/-- The common table `Ä` hides `ä` in lower case only. Without the clause nothing is hidden. -/
theorem parse_lowerCaseNames_umlaut :
    let text := utf8 "WITH Ä AS (SELECT 1 FROM `Db`.T) SELECT 1 FROM ä, B"
    let simple := utf8 "SELECT 1 FROM ä JOIN Β.ΟΔΟΣ"
    (parse { lowerCaseNames := false } text).references =
        [⟨some "Db", "T"⟩, ⟨none, "ä"⟩, ⟨none, "B"⟩] ∧
      (parse { lowerCaseNames := true } text).references = [⟨some "db", "t"⟩, ⟨none, "b"⟩] ∧
      (parse { lowerCaseNames := true } text).references.Sublist
        ((parse { lowerCaseNames := false } text).references.map TableReference.toLower) ∧
      (parse { lowerCaseNames := true } simple).references =
        (parse { lowerCaseNames := false } simple).references.map TableReference.toLower := by
  intro text simple
  refine ⟨?_, ?_, ?_, ?_⟩
  · decide +kernel
  · decide +kernel
  · exact (parse_lowerCaseNames {} text).2.1
  · exact (parse_lowerCaseNames {} simple).2.2 (by decide +kernel)

end SqlTables
