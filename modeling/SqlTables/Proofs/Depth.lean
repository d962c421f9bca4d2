import SqlTables.Proofs.Depth.Agree
import SqlTables.Proofs.Hiding
import SqlTables.Proofs.Transparency

/-!
# `SqlTables.Proofs.Depth` — what the limit of nesting changes

A lower limit leaves out the spans that lie too deep, and the names that are bound in them. It never
changes the type of a statement, and it adds references only where a name that would have hidden them was
left out. A limit as large as the number of parentheses is no limit.

## Contents
- **`FindingsRel.within`** and **`envRel_within`**: two runs, one of which searches deeper.
- **`boundNames`** and **`visible_parse_sublist`**: the references under a lower limit.
- **`opens_tokens_le`** and **`parse_eq_of_count_le`**: limits that are large enough.
- **`parse_maxDepth`**: all of this for two limits.
-/

namespace SqlTables

open TokenSource

/-! ## Two runs -/

/-- Fewer bound names hide fewer references. -/
theorem visible_sublist_of_subset {names more : List String} (h : names ⊆ more)
    (references : List TableReference) :
    (visible more references).Sublist (visible names references) := by
  refine List.monotone_filter_right references ?_
  intro r hr
  cases hs : r.schema.isSome with
  | true => rfl
  | false =>
      rw [hs, Bool.false_or, Bool.not_eq_true'] at hr
      rw [Bool.false_or, Bool.not_eq_true', ← Bool.not_eq_true]
      intro hn
      rw [hides_of_subset h hn] at hr
      cases hr

/-- The first run binds less. Where `names` are all the names of the second run, what the first one
    finds beyond the second is hidden by one of them. -/
def FindingsRel.within (names : List String) : FindingsRel where
  bound b c := b ⊆ c
  found _ c f g := f.bound ⊆ g.bound ∧
    (c ++ g.bound ⊆ names → (visible names f.references).Sublist g.references)
  empty _ := ⟨List.nil_subset _, fun _ => List.Sublist.refl []⟩
  append := by
    rintro b c f g f' g' ⟨hb, hr⟩ ⟨hb', hr'⟩
    refine ⟨List.append_subset.mpr ⟨?_, ?_⟩, ?_⟩
    · exact List.subset_append_of_subset_left _ hb
    · exact List.subset_append_of_subset_right _ hb'
    · intro hall
      rw [Findings.bound_append, ← List.append_assoc] at hall
      rw [Findings.references_append, Findings.references_append, visible_append]
      exact (hr (List.append_subset.mp hall).1).append (hr' hall)
  extend := by
    rintro b c f g hbc ⟨hb, _⟩
    exact List.append_subset.mpr ⟨List.subset_append_of_subset_left _ hbc,
      List.subset_append_of_subset_right _ hb⟩

variable {σ : Type} [TokenSource σ] [LawfulSource σ]

/-- A level with fewer levels below it finds a part of what a level with more of them finds. -/
theorem envRel_within (names : List String) (lower usingTables : Bool) {m n : Nat} (h : m ≤ n) :
    EnvRel Eq (.within names) (Env.nested (σ := σ) lower usingTables m)
      (Env.nested (σ := σ) lower usingTables n) := by
  obtain ⟨k, rfl⟩ := Nat.exists_eq_add_of_le h
  -- At the lowest level the first run searches nothing; above it both search in the same way.
  have hbase : EnvRel Eq (.within names) (Env.nested (σ := σ) lower usingTables 0)
      (Env.nested (σ := σ) lower usingTables k) :=
    { usingTables := fun _ _ => (usingTables_nested lower usingTables k).symm
      record := by
        rintro b c n m hbc hname
        obtain rfl := hname.eq id
        refine ⟨?_, ?_⟩
        · rw [Env.bound_record]
          exact List.nil_subset _
        · intro hall
          have hc : c ⊆ names := (List.append_subset.mp hall).1
          rw [references_record, references_record, lower_nested, lower_nested, ← visible_visible]
          exact visible_sublist_of_subset (List.subset_append_of_subset_left b hc) _
      names := by
        rintro w w' b c t u _ _ _ htu
        rw [htu.1, lower_nested, lower_nested]
        exact ⟨List.Subset.refl _, fun _ => List.Sublist.refl []⟩
      search := fun _ _ _ => ⟨List.nil_subset _, fun _ => List.nil_sublist _⟩ }
  have hnested := hbase.nested m
  rw [Nat.zero_add, Nat.add_comm k m] at hnested
  exact hnested

/-! ## A lower limit -/

/-- The names that the `WITH` clauses of a statement bind, at any place of it that is searched. -/
def boundNames (options : Options) (text : Bytes) : List String :=
  (statement options .unknown [] text).bound

/-- With a lower limit no table is found that a higher limit does not find, but for tables whose names the
    higher limit binds. -/
theorem visible_parse_sublist {m n : Nat} (h : m ≤ n) (lower : Bool) (text : Bytes) :
    (visible (boundNames ⟨n, lower⟩ text) (parse ⟨m, lower⟩ text).references).Sublist
      (parse ⟨n, lower⟩ text).references := by
  have hE : ∀ type : StatementType, EnvRel Eq (.within (boundNames ⟨n, lower⟩ text))
      (.outer ⟨m, lower⟩ type : Env Bytes) (.outer ⟨n, lower⟩ type) :=
    fun type => envRel_within _ _ _ h
  have hfound := statement_rel (hE .unknown) (hE _) (List.Subset.refl []) (follows_refl text)
  rw [parse_eq_statement, parse_eq_statement]
  exact hfound.2 (List.Subset.refl _)

/-! ## A limit that is large enough -/

/-- Every parenthesis among the tokens is one of the bytes. -/
theorem opens_tokens_le (bs : Bytes) : opens bs.tokens ≤ bs.count '('.toUInt8 := by
  fun_induction Bytes.tokens bs with
  | case1 bs t rest h ih =>
      obtain ⟨b, tail, hs, hsuf⟩ := nextToken?_suffix h
      have hgap : (b :: tail).count '('.toUInt8 ≤ bs.count '('.toUInt8 :=
        (hs ▸ skipGap_suffix bs).sublist.count_le _
      have hrest : rest.count '('.toUInt8 ≤ tail.count '('.toUInt8 := hsuf.sublist.count_le _
      by_cases ht : t = .sym '('
      · subst ht
        obtain ⟨rfl, _⟩ := List.cons.inj (hs.symm.trans (skipGap_of_nextToken?_punct h))
        rw [List.count_cons_self] at hgap
        rw [opens_paren]
        omega
      · have hone : opens (t :: rest.tokens) = opens rest.tokens := List.count_cons_of_ne ht
        have htail : tail.count '('.toUInt8 ≤ (b :: tail).count '('.toUInt8 :=
          List.count_le_count_cons
        rw [hone]
        omega
  | case2 bs h => exact Nat.zero_le _

/-- Limits of at least the number of parentheses that open in the text give the same summary. -/
theorem parse_eq_of_count_le {m n : Nat} (lower : Bool) {text : Bytes}
    (hm : text.count '('.toUInt8 ≤ m) (hn : text.count '('.toUInt8 ≤ n) :
    parse ⟨m, lower⟩ text = parse ⟨n, lower⟩ text := by
  have hopens := opens_tokens_le text
  have hsame := statement_agrees lower (Nat.le_trans hopens hm) (Nat.le_trans hopens hn) .unknown []
  rw [parse, parse, Summary.read, Summary.read, extract_tokens, extract_tokens,
    extract_eq_statement, extract_eq_statement, hsame]

/-! ## Two limits -/

/-- **The limit of nesting.** Of two limits the lower one gives the same type, and its references, apart
    from the unqualified ones to a name that is bound under the higher limit, are some of those of the
    higher limit in the same order. Once the lower limit is as large as the number of opening
    parentheses, both give the same. -/
theorem parse_maxDepth {m n : Nat} (h : m ≤ n) (lower : Bool) (text : Bytes) :
    (parse ⟨m, lower⟩ text).type = (parse ⟨n, lower⟩ text).type ∧
      (visible (boundNames ⟨n, lower⟩ text) (parse ⟨m, lower⟩ text).references).Sublist
        (parse ⟨n, lower⟩ text).references ∧
      (text.count '('.toUInt8 ≤ m → parse ⟨m, lower⟩ text = parse ⟨n, lower⟩ text) := by
  refine ⟨?_, visible_parse_sublist h lower text, ?_⟩
  · rw [parse_eq_statement, parse_eq_statement]
  · intro hcount
    exact parse_eq_of_count_le lower hcount (Nat.le_trans hcount h)

/-- The span is not searched under the limit 0, so that `A` is taken for a table and `b` is missed. -/
theorem parse_maxDepth_span :
    let text := ascii "SELECT 1 FROM (WITH a AS (SELECT 1 FROM b) SELECT 1 FROM a) x, A, c"
    (parse ⟨0, false⟩ text).references = [⟨none, "A"⟩, ⟨none, "c"⟩] ∧
      boundNames ⟨5, false⟩ text = ["a"] ∧
      (visible (boundNames ⟨5, false⟩ text) (parse ⟨0, false⟩ text).references).Sublist
        (parse ⟨5, false⟩ text).references ∧
      (parse ⟨5, false⟩ text).references = [⟨none, "b"⟩, ⟨none, "c"⟩] ∧
      parse ⟨2, false⟩ text = parse ⟨5, false⟩ text := by
  intro text
  refine ⟨?_, ?_, ?_, ?_, ?_⟩
  · decide +kernel
  · decide +kernel
  · exact (parse_maxDepth (Nat.zero_le 5) false text).2.1
  · decide +kernel
  · exact (parse_maxDepth (by decide : 2 ≤ 5) false text).2.2 (by decide +kernel)

end SqlTables
