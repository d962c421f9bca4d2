import SqlTables.Proofs.Hiding
import SqlTables.Proofs.Reader

/-!
# `SqlTables.Proofs.Reader.Names` — bound names are only a filter

Two readers read the same text, one of them with more names bound. Both take the same steps and stand at the
same place all the time. The one with more names lacks the references that these names hide, and nothing else.

## Contents
- **`Logged.Alike`**: readings in the same steps, with related values.
- **`Reader.Behind`**: a reader with more names bound, beside the one without them.
- One lemma `…_behind` for each routine: from readers that are beside each other it leaves such readers.
- **`names_only_filter`**: all routines at once.
-/

namespace SqlTables

open TokenSource

/-! ## Readings beside each other -/

/-- Two readings in the same steps, with related values. -/
structure Logged.Alike {α β : Type} (rel : α → β → Prop) (x : Logged α) (y : Logged β) : Prop where
  steps : x.steps = y.steps
  value : rel x.value y.value

/-- Readings one after another are alike if both parts are. -/
theorem Logged.Alike.bind {α α' β β' : Type} {rel : α → α' → Prop} {rel' : β → β' → Prop}
    {x : Logged α} {y : Logged α'} {f : α → Logged β} {g : α' → Logged β'} (h : Alike rel x y)
    (hf : ∀ {a a'}, rel a a' → Alike rel' (f a) (g a')) : Alike rel' (x >>= f) (y >>= g) :=
  ⟨Logged.steps_bind h.steps (hf h.value).steps, (hf h.value).value⟩

namespace Reader

/-- The first reader has `names` bound in front of those of the second one. Of the references that came behind
    `before` it lacks those that these names hide. -/
structure Behind (names : List String) (before : List TableReference) (r r' : Reader) : Prop where
  cursor : r.cursor = r'.cursor
  type : r.summary.type = r'.summary.type
  bound : r.bound = names ++ r'.bound
  references : ∃ added, r'.summary.references = before ++ added ∧
    r.summary.references = before ++ visible names added

variable {names : List String} {before : List TableReference} {r r' : Reader}

/-- Two readers that differ only in their names are beside each other, and nothing is added so far. -/
theorem behind_start (summary : Summary) (names : List String) (cursor : Cursor) :
    Behind names summary.references ⟨summary, names, cursor⟩ ⟨summary, [], cursor⟩ where
  cursor := rfl
  type := rfl
  bound := (List.append_nil names).symm
  references := ⟨[], (List.append_nil _).symm, (List.append_nil _).symm⟩

namespace Behind

/-- Related findings that both take over keep them beside each other: what is added later is filtered like
    what was added before. -/
theorem take {f g : Findings} (h : Behind names before r r')
    (hfound : (FindingsRel.hiding names).found r.bound r'.bound f g) :
    Behind names before (r.take f) (r'.take g) where
  cursor := h.cursor
  type := h.type
  bound := (FindingsRel.hiding names).extend h.bound hfound
  references := by
    obtain ⟨added, hr', hr⟩ := h.references
    -- What comes behind is hidden on its own, since a filter goes through an append.
    refine ⟨added ++ g.references, ?_, ?_⟩
    · simp only [Reader.take, Summary.append, hr', List.append_assoc]
    · simp only [Reader.take, Summary.append, hr, hfound.2, visible_append, List.append_assoc]

/-- The same where both go on at the same place. -/
theorem goOn {part part' : Findings × Bytes} (h : Behind names before r r')
    (hfound : (FindingsRel.hiding names).found r.bound r'.bound part.1 part'.1)
    (hrest : part.2 = part'.2) : Behind names before (r.goOn part) (r'.goOn part') :=
  { h.take hfound with cursor := by rw [Reader.goOn, Reader.goOn, h.cursor, hrest] }

/-- A type that both take over stays the same. -/
theorem detect (h : Behind names before r r') (depth : Nat) (type : StatementType) :
    Behind names before (r.detect depth type) (r'.detect depth type) := by
  unfold Reader.detect
  split
  · exact { h with type := congrArg (·.orElse type) h.type }
  · exact h

/-- Both are on the same level, for the names are no part of it. -/
theorem level (h : Behind names before r r') (options : Options) (depth : Nat) :
    r.level options depth = r'.level options depth := by
  rw [Reader.level, Reader.level, h.cursor, h.type]

/-- Under the environments of their levels all routines find related things. -/
theorem envRel (h : Behind names before r r') (options : Options) (depth : Nat) :
    EnvRel Eq (.hiding names) (r.level options depth).env (r'.level options depth).env := by
  rw [env_level, env_level, h.type]
  exact envRel_hiding names _ _ _

theorem follows (h : Behind names before r r') : Follows Eq r.cursor.rest r'.cursor.rest :=
  h.cursor ▸ follows_refl _

end Behind

/-! ## Routines beside each other -/

/-- Every level is read in the same steps behind any names, so the two readers can share one. -/
theorem steady_level (options : Options) (depth : Nat) (r : Reader) : (r.level options depth).Steady :=
  Level.steady_nested _ _ _ _ _

variable (options : Options) (depth : Nat)

/-- A list of tables leaves readers beside each other. The relation of what is found says nothing of places,
    and the place where the list ends comes from `rest_tableList`. -/
theorem tableList_behind (h : Behind names before r r') :
    Logged.Alike (Behind names before) (r.tableList options depth) (r'.tableList options depth) where
  steps := by
    rw [steps_tableList, steps_tableList, h.level, h.cursor]
    exact Level.steps_tableList (r'.steady_level options depth) _ _ _
  value := by
    rw [value_tableList, value_tableList]
    refine h.goOn (tableList_rel (h.envRel options depth) h.bound h.follows).1 ?_
    rw [h.cursor]
    exact rest_tableList _ _ _ _ _

/-- Behind an opening both know the same command. -/
theorem opening_behind (h : Behind names before r r') :
    Logged.Alike (fun x y => x.1 = y.1 ∧ Behind names before x.2 y.2)
      (r.opening options depth) (r'.opening options depth) where
  steps := by
    rw [steps_opening, steps_opening, h.level, h.cursor]
    exact Level.steps_opening (r'.steady_level options depth) _ _ _
  value := by
    have hopening := opening_rel (h.envRel options depth) h.bound h.follows
    rw [value_opening, value_opening, hopening.type]
    refine ⟨rfl, (h.detect depth _).goOn ?_ ?_⟩
    · -- Taking over the type changes no name, and what was found is related under these.
      rw [bound_detect, bound_detect]
      exact hopening.found
    · simp only [h.cursor]
      exact rest_opening _ _ _ _ _

/-- The tables of this command leave them beside each other. -/
theorem targets_behind (h : Behind names before r r') (type : StatementType) :
    Logged.Alike (Behind names before) (r.targets options depth type) (r'.targets options depth type) where
  steps := by
    rw [steps_targets, steps_targets, h.level, h.cursor]
    exact Level.steps_targets (r'.steady_level options depth) _ _ _ _
  value := by
    rw [value_targets, value_targets]
    refine h.goOn (targets_rel (h.envRel options depth) h.bound h.follows type).1 ?_
    rw [h.cursor]
    exact rest_targets _ _ _ _ _ _

/-- So does the rest of a statement, up to the place behind its `;`. -/
theorem body_behind (h : Behind names before r r') :
    Logged.Alike (Behind names before) (r.body options depth) (r'.body options depth) where
  steps := by
    rw [steps_body, steps_body, h.level, h.cursor]
    exact Level.steps_body (r'.steady_level options depth) _ _ _ _
  value := by
    rw [value_body, value_body]
    refine h.goOn ?_ ?_
    · rw [fst_bodyTo, fst_bodyTo]
      exact body_rel (h.envRel options depth) _ h.bound h.follows
    · rw [h.level, h.cursor]
      exact rest_bodyTo rfl _ _ _ _

/-- Expressions are read to the end, so there is no place to compare. -/
theorem expression_behind (h : Behind names before r r') :
    Logged.Alike (Behind names before) (r.expression options depth) (r'.expression options depth) where
  steps := by
    rw [steps_expression, steps_expression, h.level, h.cursor]
    exact Level.steps_expression (r'.steady_level options depth) _ _ _
  value := by
    rw [value_expression, value_expression]
    exact h.goOn (expression_rel (h.envRel options depth) h.bound h.follows) rfl

/-- A span is handed on as it is, and the cursor stays on both sides. -/
theorem search_behind (h : Behind names before r r') (place : Place) (span : Bytes) :
    Logged.Alike (Behind names before) (r.search options depth place span)
      (r'.search options depth place span) where
  steps := by
    unfold search
    rw [Logged.steps_andThen, Logged.steps_andThen, h.level]
    exact Level.steps_handOn (r'.steady_level options depth) place _ _ span
  value := by
    exact h.take ((h.envRel options depth).search place h.bound (follows_refl span))

/-- A statement is its opening, its tables and its rest, one behind another. -/
theorem statement_behind (h : Behind names before r r') :
    Logged.Alike (Behind names before) (r.statement options depth) (r'.statement options depth) := by
  refine (opening_behind options depth h).bind ?_
  -- Both openings tell one type, so that the same command's tables are read behind them.
  rintro ⟨type, opened⟩ ⟨_, opened'⟩ ⟨rfl, hopened⟩
  refine (targets_behind options depth hopened type).bind ?_
  intro named named' hnamed
  exact body_behind options depth hnamed

/-! ## Names as a filter -/

/-- Whatever names are bound before it, a routine reads as if none were. Its steps are the same, it ends at
    the same place and knows the same type. It adds what it adds without the names, except for the references
    that they hide, and the names stay in front of those that it binds itself. -/
def NamesOnlyFilter (run : Reader → Logged Reader) : Prop :=
  ∀ (summary : Summary) (names : List String) (cursor : Cursor),
    Logged.Alike (Behind names summary.references) (run ⟨summary, names, cursor⟩)
      (run ⟨summary, [], cursor⟩)

/-- It is enough to compare any two readers that are beside each other. -/
theorem namesOnlyFilter_of_behind {run : Reader → Logged Reader}
    (h : ∀ {names before r r'}, Behind names before r r' →
      Logged.Alike (Behind names before) (run r) (run r')) : NamesOnlyFilter run :=
  fun summary names cursor => h (behind_start summary names cursor)

/-- **Bound names are only a filter**, for a statement at any depth and for every part of one. -/
theorem names_only_filter (options : Options) (depth : Nat) :
    NamesOnlyFilter (statement options depth) ∧
      NamesOnlyFilter (body options depth) ∧
      NamesOnlyFilter (tableList options depth) ∧
      NamesOnlyFilter (expression options depth) ∧
      ∀ (place : Place) (span : Bytes), NamesOnlyFilter (search options depth · place span) :=
  ⟨namesOnlyFilter_of_behind (statement_behind options depth),
    namesOnlyFilter_of_behind (body_behind options depth),
    namesOnlyFilter_of_behind (tableList_behind options depth),
    namesOnlyFilter_of_behind (expression_behind options depth),
    fun place span => namesOnlyFilter_of_behind fun h => search_behind options depth h place span⟩

/-- The name `A` hides the table `a` in the body of `b` and behind it, but neither `s.a` nor `c`. -/
example :
    let text := ascii "WITH b AS (SELECT 1 FROM a) SELECT 1 FROM a, s.a, b, c"
    let read := ((⟨{}, ["A"], .start text⟩ : Reader).statement {} 0).value
    read.summary = ⟨.select, [⟨some "s", "a"⟩, ⟨none, "c"⟩]⟩ ∧ read.bound = ["A", "b"] := by
  decide +kernel

end Reader

end SqlTables
