import SqlTables.Proofs.Grammar.Leaves
import SqlTables.Proofs.Occurrence
import SqlTables.Proofs.TablePosition.Position

/-!
# `SqlTables.Proofs.TablePosition.Readers` — what is read between two tables

Whatever may follow a table of a list (a partition, an alias, a list of columns, index hints) is read without
leaving the level of the list, and without passing over a word that begins a clause. Hints with a purpose
are left out: behind `FOR` any word is passed.

## Contents
- **`Passes`**: a reader that stays on the level and passes over no clause.
- One lemma `…_passes` for each reader.
- **`skipKeywords_run`**: a run of keywords and the token behind it.
- **`qualifiedName?_parts`** and **`parts_passes`**: all parts of a name.
-/

namespace SqlTables

open TokenSource

/-- From position `i` on a reader gets to `rest`, on the same level and past no clause. -/
def Passes (ts : List Token) (stop : Nat) (level : List Nat) (i : Nat) (rest : List Token) : Prop :=
  ∃ j, i ≤ j ∧ At ts stop level j rest ∧ Quiet ts level i j

variable {ts s rest inside : List Token} {level : List Nat} {t : Token} {i stop : Nat}

theorem passes_self (h : At ts stop level i s) : Passes ts stop level i s :=
  ⟨i, Nat.le_refl i, h, quiet_refl ts level i⟩

/-- A reader that starts where another one has stopped. -/
theorem Passes.andThen {rest' : List Token} (h : Passes ts stop level i rest)
    (h' : ∀ {j}, At ts stop level j rest → Passes ts stop level j rest') :
    Passes ts stop level i rest' := by
  obtain ⟨j, hij, hat, hquiet⟩ := h
  obtain ⟨k, hjk, hat', hquiet'⟩ := h' hat
  exact ⟨k, Nat.le_trans hij hjk, hat', hquiet.trans hquiet'⟩

theorem passes_token (h : At ts stop level i (t :: rest)) (ho : t ≠ .sym '(')
    (ht : t.isKeyword Keyword.beginsClause = false) : Passes ts stop level i rest :=
  ⟨i + 1, Nat.le_succ i, h.tail ho, quiet_one (not_beginsClauseAt h.token ht)⟩

/-! ## Words -/

theorem beginsClause_of_isKeyword {p : Keyword → Bool}
    (hp : ∀ k, p k = true → k.beginsClause = false) (h : t.isKeyword p = true) :
    t.isKeyword Keyword.beginsClause = false := by
  obtain ⟨k, hk, hpk⟩ := (Option.any_eq_true _ _).mp h
  rw [Token.isKeyword_of_keyword? hk, hp k hpk]

/-- A keyword of a kind at which no clause begins is passed in silence. -/
theorem keyword_passes {p : Keyword → Bool} (hp : ∀ k, p k = true → k.beginsClause = false)
    (h : At ts stop level i s) (ha : acceptKeyword? p s = some rest) :
    Passes ts stop level i rest := by
  obtain ⟨t, ht, rfl⟩ := accept?_eq_some_iff.mp ha
  exact passes_token h (Grammar.ne_sym_of_isKeyword ht '(') (beginsClause_of_isKeyword hp ht)

/-- A run of keywords of a class, and behind it none. -/
theorem skipKeywords_run (p : Keyword → Bool) (s : List Token) :
    ∃ run, s = run ++ skipKeywords p s ∧ (∀ t ∈ run, t.isKeyword p = true) ∧
      ∀ t ∈ (skipKeywords p s).head?, t.isKeyword p = false := by
  unfold skipKeywords
  fun_induction skipWhile (·.isKeyword p) s with
  | case1 s rest ha ih =>
      obtain ⟨t, ht, rfl⟩ := accept?_eq_some_iff.mp ha
      obtain ⟨run, hrun, hall, hbehind⟩ := ih
      refine ⟨t :: run, congrArg (t :: ·) hrun, ?_, hbehind⟩
      exact List.forall_mem_cons.mpr ⟨ht, hall⟩
  | case2 s ha =>
      refine ⟨[], rfl, fun t ht => absurd ht List.not_mem_nil, ?_⟩
      intro t ht
      cases s with
      | nil => cases ht
      | cons u s =>
          obtain rfl := Option.some.inj ht
          rw [← Bool.not_eq_true]
          intro hu
          -- The loop has stopped, and a keyword of the class would have been accepted.
          have hcons : accept? (·.isKeyword p) (u :: s) = some s := accept?_cons hu s
          rw [hcons] at ha
          cases ha

/-- A run of keywords that begin no clause. -/
theorem run_passes {p : Keyword → Bool} (hp : ∀ k, p k = true → k.beginsClause = false)
    {run : List Token} (hrun : ∀ t ∈ run, t.isKeyword p = true)
    (h : At ts stop level i (run ++ rest)) :
    At ts stop level (i + run.length) rest ∧ Quiet ts level i (i + run.length) := by
  induction run generalizing i with
  | nil => exact ⟨h, quiet_refl ts level i⟩
  | cons t run ih =>
      obtain ⟨ht, hrun⟩ := List.forall_mem_cons.mp hrun
      have hquiet : Quiet ts level i (i + 1) :=
        quiet_one (not_beginsClauseAt h.token (beginsClause_of_isKeyword hp ht))
      have hmore := ih hrun (h.tail (Grammar.ne_sym_of_isKeyword ht '('))
      rw [List.length_cons, Nat.add_comm run.length 1, ← Nat.add_assoc]
      exact ⟨hmore.1, hquiet.trans hmore.2⟩

/-- So are any number of them. -/
theorem skipKeywords_passes {p : Keyword → Bool} (hp : ∀ k, p k = true → k.beginsClause = false)
    (h : At ts stop level i s) : Passes ts stop level i (skipKeywords p s) := by
  obtain ⟨run, hs, hrun, _⟩ := skipKeywords_run p s
  rw [hs] at h
  have hbehind := run_passes hp hrun h
  exact ⟨i + run.length, Nat.le_add_right i _, hbehind.1, hbehind.2⟩

/-! ## What may follow a table -/

/-- A span is passed as a whole: what is inside is on another level, on which clauses do not count here. -/
theorem skipSpan_passes (h : At ts stop level i s) : Passes ts stop level i (skipSpan s) := by
  unfold skipSpan
  cases ha : acceptSym? '(' s with
  | none => exact passes_self h
  | some inside =>
      obtain rfl := acceptSym?_eq_some_iff.mp ha
      obtain ⟨_, j, hij, hat, hquiet⟩ := h.span
      exact ⟨j, by omega, hat, hquiet⟩

/-- Every word that begins a clause ends a list of tables, and therefore no table is named by it. -/
theorem beginsClause_of_startsName (h : startsName t = true) :
    t.isKeyword Keyword.beginsClause = false := by
  obtain ⟨_, hends⟩ := Bool.and_eq_true _ _ ▸ h
  cases hk : t.keyword? with
  | none => rw [Token.isKeyword, hk, Option.any_none]
  | some k =>
      rw [Token.isKeyword_of_keyword? hk, Bool.not_eq_true'] at hends
      rw [Token.isKeyword_of_keyword? hk]
      have hdisjoint : ∀ k : Keyword, k.endsTableList = false → k.beginsClause = false := by
        intro k hk
        cases k <;> first | rfl | cases hk
      exact hdisjoint k hends

/-- Nor is it an alias. -/
theorem beginsClause_of_isAlias (h : isAlias t = true) :
    t.isKeyword Keyword.beginsClause = false := by
  cases t with
  | quoted q content => rfl
  | word text => exact beginsClause_of_startsName h
  | punct b => rfl

/-- No clause begins at an alias, with `AS` in front of it or without. -/
theorem skipAlias_passes (h : At ts stop level i s) : Passes ts stop level i (skipAlias s) := by
  cases s with
  | nil => exact passes_self h
  | cons t rest =>
      cases hk : t.keyword? with
      | none =>
          rw [skipAlias_plain hk]
          by_cases ht : t.isIdentifier = true
          · rw [if_pos ht]
            refine passes_token h (Grammar.ne_sym_of_isIdentifier ht '(') ?_
            rw [Token.isKeyword, hk, Option.any_none]
          · rw [if_neg ht]
            exact passes_self h
      | some k =>
          by_cases has : k = .AS
          · subst has
            rw [skipAlias_as hk]
            have hword : t.isKeyword (· == .AS) = true := Token.isKeyword_of_keyword? hk _
            have hpasses : Passes ts stop level i rest :=
              passes_token h (Grammar.ne_sym_of_isKeyword hword '(')
                (Token.isKeyword_of_keyword? hk _)
            -- `AS` has been passed, and behind it one more token at most.
            refine hpasses.andThen ?_
            intro j hj
            unfold skip
            cases ha : accept? isAlias rest with
            | none => exact passes_self hj
            | some rest' =>
                obtain ⟨u, hu, rfl⟩ := accept?_eq_some_iff.mp ha
                exact passes_token hj (Grammar.ne_sym_of_isAlias hu '(') (beginsClause_of_isAlias hu)
          · rw [skipAlias_keyword hk has]
            exact passes_self h

/-- Nor in the list of partitions. -/
theorem skipPartition_passes (h : At ts stop level i s) :
    Passes ts stop level i (skipPartition s) := by
  unfold skipPartition
  cases ha : acceptKeyword? (· == .PARTITION) s with
  | none => exact passes_self h
  | some rest =>
      have hword : Passes ts stop level i rest := keyword_passes (Grammar.forall_keyword (by decide)) h ha
      exact hword.andThen skipSpan_passes

/-- Without a `FOR` no hint has a purpose. -/
theorem skipHintPurpose_eq (hfor : ∀ t ∈ ts, t.keyword? ≠ some .FOR) (h : At ts stop level i s) :
    skipHintPurpose s = s := by
  unfold skipHintPurpose
  cases ha : acceptKeyword? (· == .FOR) s with
  | none => rfl
  | some rest =>
      obtain ⟨t, ht, rfl⟩ := accept?_eq_some_iff.mp ha
      obtain ⟨k, hk, he⟩ := (Option.any_eq_true _ _).mp ht
      exact absurd (beq_iff_eq.mp he ▸ hk) (hfor t h.mem)

/-- Nor in an index hint, as long as it has no purpose: `GROUP` and `ORDER` may stand behind `FOR`. -/
theorem indexHint?_passes (hfor : ∀ t ∈ ts, t.keyword? ≠ some .FOR) (h : At ts stop level i s)
    (hhint : indexHint? s = some rest) : Passes ts stop level i rest := by
  simp only [indexHint?, Option.bind_eq_bind, Option.bind_eq_some_iff, Option.some.injEq] at hhint
  obtain ⟨a, ha, b, hb, rfl⟩ := hhint
  have hfirst : Passes ts stop level i a := keyword_passes (Grammar.forall_keyword (by decide)) h ha
  have hsecond : Passes ts stop level i b :=
    hfirst.andThen fun hat => keyword_passes (Grammar.forall_keyword (by decide)) hat hb
  refine hsecond.andThen ?_
  intro j hat
  rw [skipHintPurpose_eq hfor hat]
  exact skipSpan_passes hat

/-- Hints one after another are passed in silence. -/
theorem skipIndexHints_passes (hfor : ∀ t ∈ ts, t.keyword? ≠ some .FOR)
    (h : At ts stop level i s) : Passes ts stop level i (skipIndexHints s) := by
  fun_induction skipIndexHints s generalizing i with
  | case1 s rest hhint ih => exact (indexHint?_passes hfor h hhint).andThen ih
  | case2 s hhint => exact passes_self h

/-! ## Names -/

/-- All parts of a name, of which the last one is the table and the one before it the schema. -/
theorem furtherParts_parts (name : QualifiedName) (s : List Token) :
    ∃ more : List Token, (∀ t ∈ more, t.isIdentifier = true) ∧
      name.table :: s = (name.table :: more).intersperse (.sym '.') ++ (furtherParts name s).2 ∧
      (name.table :: more).getLast? = some (furtherParts name s).1.table ∧
      (name.table :: more).dropLast.getLast?.or name.schema = (furtherParts name s).1.schema := by
  fun_induction furtherParts name s with
  | case1 name s part rest h ih =>
      obtain ⟨rfl, hpart⟩ := dottedPart?_eq_some h
      obtain ⟨more, hmore, hs, htable, hschema⟩ := ih
      refine ⟨part :: more, List.forall_mem_cons.mpr ⟨hpart, hmore⟩, ?_, ?_, ?_⟩
      · rw [List.intersperse_cons_cons]
        exact congrArg (fun tail => name.table :: .sym '.' :: tail) hs
      · rw [List.getLast?_cons_cons]
        exact htable
      · rw [← hschema, List.dropLast_cons_cons, List.getLast?_cons]
        cases (part :: more).dropLast.getLast? <;> rfl
  | case2 name s h =>
      exact ⟨[], fun t ht => absurd ht List.not_mem_nil, rfl, rfl, rfl⟩

/-- A name is its identifiers with dots between them. The last one is the table, and the one in front of it
    the schema. -/
theorem qualifiedName?_parts {name : QualifiedName} (h : qualifiedName? s = some (name, rest)) :
    ∃ (first : Token) (more : List Token), startsName first = true ∧
      (∀ t ∈ more, t.isIdentifier = true) ∧
      s = (first :: more).intersperse (.sym '.') ++ rest ∧
      (first :: more).getLast? = some name.table ∧
      (first :: more).dropLast.getLast? = name.schema := by
  unfold qualifiedName? at h
  split at h
  · next t r hn =>
      split at h
      · next ht =>
          obtain ⟨more, hmore, hs, htable, hschema⟩ := furtherParts_parts ⟨none, t⟩ r
          rw [Option.some.inj h] at hs htable hschema
          rw [Option.or_none] at hschema
          exact ⟨t, more, ht, hmore, (next?_eq_some_iff.mp hn).trans hs, htable, hschema⟩
      · cases h
  · cases h

/-- A name is passed from its first part on. Its further parts stand behind dots and begin no clause. -/
theorem parts_passes {first : Token} {more : List Token} (hfirst : first.isIdentifier = true)
    (hclause : ¬ BeginsClauseAt ts i) (hmore : ∀ t ∈ more, t.isIdentifier = true)
    (h : At ts stop level i ((first :: more).intersperse (.sym '.') ++ rest)) :
    At ts stop level (i + ((first :: more).intersperse (.sym '.')).length) rest ∧
      Quiet ts level i (i + ((first :: more).intersperse (.sym '.')).length) := by
  induction more generalizing first i with
  | nil => exact ⟨h.tail (Grammar.ne_sym_of_isIdentifier hfirst '('), quiet_one hclause⟩
  | cons part more ih =>
      obtain ⟨hpart, hmore⟩ := List.forall_mem_cons.mp hmore
      rw [List.intersperse_cons_cons] at h ⊢
      have hdot := h.tail (Grammar.ne_sym_of_isIdentifier hfirst '(')
      have hnext := hdot.tail (by decide)
      have hbehind := ih hpart (not_beginsClauseAt_of_dot hdot.token) hmore hnext
      have hquiet : Quiet ts level i (i + 1 + 1) :=
        (quiet_one hclause).trans (quiet_one (not_beginsClauseAt hdot.token rfl))
      have hlen : i + (first :: Token.sym '.' :: (part :: more).intersperse (.sym '.')).length =
          i + 1 + 1 + ((part :: more).intersperse (.sym '.')).length := by
        rw [List.length_cons, List.length_cons]
        omega
      rw [hlen]
      exact ⟨hbehind.1, hquiet.trans hbehind.2⟩

end SqlTables
