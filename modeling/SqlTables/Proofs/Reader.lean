import SqlTables.Proofs.Cursor
import SqlTables.Proofs.Progress
import SqlTables.Proofs.Progress.Course

/-!
# `SqlTables.Proofs.Reader` — reading as the change of a state

A reader carries a summary to which references are added, the names bound so far, and a cursor. Each routine
turns one reader into another one, and its steps tell the way from one to the other. A span in parentheses is
read by a reader of its own, one level further in, which adds to the same summary and the same names.

## Contents
- **`Reader`**, with `Reader.take` and `Reader.goOn`: what was found goes into the state.
- **`Reader.tableList`**, `Reader.opening`, `Reader.targets`, `Reader.body`, `Reader.expression` and
  `Reader.search`: the routines, with **`Reader.statement`** and `Reader.span` for what is read to its end.
- Lemmas `value_…` and `steps_…` for each: it finds what the routine of this name finds, in the same steps.
- **`search_eq`**: a span is read by the routines one level further in.
- **`statement_start`**: a statement as a whole is read as by `Summary.read`, in the steps of `reading`.
-/

namespace SqlTables

open TokenSource
open Logged (note)

/-- To go on with a value takes no step of its own. -/
theorem Logged.steps_andThen {α β : Type} (x : Logged α) (f : α → β) :
    (x >>= fun a => pure (f a)).steps = x.steps := List.append_nil _

theorem Logged.ext_parts {α : Type} {x y : Logged α} (hvalue : x.value = y.value)
    (hsteps : x.steps = y.steps) : x = y :=
  congr (congrArg Logged.mk hvalue) hsteps

/-- What has been read so far, which names are bound, and where reading goes on. -/
structure Reader where
  summary : Summary
  bound : List String
  cursor : Cursor

namespace Reader

/-! ## The state -/

/-- Takes findings into the summary and the names. -/
def take (r : Reader) (found : Findings) : Reader :=
  { r with summary := r.summary.append found.references, bound := r.bound ++ found.bound }

/-- Takes over what a routine found, and goes on where it ended. -/
def goOn (r : Reader) (part : Findings × Bytes) : Reader :=
  { r.take part.1 with cursor := r.cursor.moveTo part.2 }

/-- Takes over the type of a statement at a depth. Only outside of parentheses does a statement tell it. -/
def detect (r : Reader) (depth : Nat) (type : StatementType) : Reader :=
  if depth = 0 then { r with summary := r.summary.detect type } else r

/-- The level at a depth. Only in a statement that is known to be a `DELETE` does `USING` list tables. -/
def level (options : Options) (depth : Nat) (r : Reader) : Level :=
  .nested options.lowerCaseNames (r.summary.type == .delete) (options.maxDepth - depth) depth r.cursor.text

/-! ## Routines -/

variable (options : Options) (depth : Nat) (r : Reader)

/-- Reads a list of tables. -/
def tableList : Logged Reader := do
  let list ← (r.level options depth).tableList r.bound r.cursor.rest
  return r.goOn list

/-- Reads how a statement opens. Its type is known from then on. -/
def opening : Logged (StatementType × Reader) := do
  let start ← (r.level options depth).opening r.bound r.cursor.rest
  return (start.type, (r.goOn (start.found, start.rest)).detect depth start.type)

/-- Reads the tables that a command names itself. -/
def targets (type : StatementType) : Logged Reader := do
  let named ← (r.level options depth).targets r.bound type r.cursor.rest
  return r.goOn named

/-- Reads the rest of a statement. -/
def body : Logged Reader := do
  let l := r.level options depth
  let found ← l.body (depth == 0) r.bound r.cursor.rest
  return r.goOn (found, (bodyTo l.env (depth == 0) r.bound r.cursor.rest).2)

/-- Reads a statement. -/
def statement : Logged Reader := do
  let (type, opened) ← r.opening options depth
  let named ← opened.targets options depth type
  named.body options depth

/-- Reads expressions to the end. -/
def expression : Logged Reader := do
  let found ← (r.level options depth).expression r.bound r.cursor.rest
  return r.goOn (found, [])

/-- Reads what stands in parentheses at a place. -/
def span (place : Place) : Logged Reader :=
  if startsQuery r.cursor.rest then r.statement options depth
  else
    match place with
    | .expression => r.expression options depth
    | .tableList => do
        let listed ← r.tableList options depth
        listed.body options depth

/-- Hands a span of the buffer on, while the cursor stays. -/
def search (place : Place) (span : Bytes) : Logged Reader := do
  let found ← (r.level options depth).handOn place r.bound span
  return r.take found

/-! ## Laws of the state -/

/-- Without its steps a level is the environment that is given to `Summary.read`. -/
theorem env_level : (r.level options depth).env =
    Env.nested options.lowerCaseNames (r.summary.type == .delete) (options.maxDepth - depth) :=
  Level.env_nested _ _ _ _ _

variable {r}

/-- Where a routine ends, the reader has what it left in front of it. -/
theorem rest_goOn {part : Findings × Bytes} (h : part.2 <:+ r.cursor.rest) :
    (r.goOn part).cursor.rest = part.2 :=
  Cursor.rest_moveTo (h.trans r.cursor.rest_suffix)

theorem take_empty (r : Reader) : r.take ∅ = r := by
  simp [take, Summary.append]

/-- Findings that are taken over one after another are taken over at once. -/
theorem goOn_goOn (part more : Findings × Bytes) :
    (r.goOn part).goOn more = r.goOn (part.1 ++ more.1, more.2) := by
  simp [goOn, take, Summary.append, Cursor.moveTo]

theorem detect_goOn (part : Findings × Bytes) (type : StatementType) :
    (r.goOn part).detect depth type = (r.detect depth type).goOn part := by
  unfold detect
  split <;> rfl

theorem cursor_detect (type : StatementType) : (r.detect depth type).cursor = r.cursor := by
  unfold detect
  split <;> rfl

theorem bound_detect (type : StatementType) : (r.detect depth type).bound = r.bound := by
  unfold detect
  split <;> rfl

/-! ## What the routines find -/

variable (r)

theorem value_tableList : (r.tableList options depth).value =
    r.goOn (SqlTables.tableList (r.level options depth).env r.bound r.cursor.rest) := by
  simp [tableList]

theorem value_opening :
    let start := SqlTables.opening (r.level options depth).env r.bound r.cursor.rest
    (r.opening options depth).value =
      (start.type, (r.detect depth start.type).goOn (start.found, start.rest)) := by
  simp [opening, detect_goOn]

theorem value_targets (type : StatementType) : (r.targets options depth type).value =
    r.goOn (SqlTables.targets (r.level options depth).env r.bound type r.cursor.rest) := by
  simp [targets]

/-- The rest of a statement is read up to the place where `bodyTo` ends. -/
theorem value_body : (r.body options depth).value =
    r.goOn (bodyTo (r.level options depth).env (depth == 0) r.bound r.cursor.rest) := by
  simp [body, ← fst_bodyTo]

theorem value_expression : (r.expression options depth).value =
    r.goOn (SqlTables.expression (r.level options depth).env r.bound r.cursor.rest, []) := by
  simp [expression]

/-- The tables of a command and the rest of its statement are taken over together. -/
theorem value_afterOpening (type : StatementType) :
    ∃ rest, ((r.targets options depth type).value.body options depth).value =
      r.goOn (SqlTables.afterOpening (r.level options depth).env (depth == 0) r.bound type r.cursor.rest,
        rest) := by
  have hnamed := targets_ahead ahead_bytes (r.level options depth).env r.bound type r.cursor.rest
  rw [value_targets, value_body, rest_goOn hnamed, goOn_goOn, fst_bodyTo]
  exact ⟨_, rfl⟩

/-- Behind the opening, the reader has the names that it binds and stands where it ends. -/
theorem behind_opening :
    let start := SqlTables.opening (r.level options depth).env r.bound r.cursor.rest
    let opened := (r.detect depth start.type).goOn (start.found, start.rest)
    opened.bound = r.bound ++ start.found.bound ∧ opened.cursor.rest = start.rest := by
  intro start opened
  have hstart : start.rest <:+ (r.detect depth start.type).cursor.rest :=
    (r.cursor_detect depth start.type).symm ▸
      opening_ahead ahead_bytes (r.level options depth).env r.bound r.cursor.rest
  exact ⟨congrArg (· ++ start.found.bound) (r.bound_detect depth start.type), rest_goOn hstart⟩

/-- The findings of a statement go into the state once its type has. -/
theorem value_statement :
    let start := SqlTables.opening (r.level options depth).env r.bound r.cursor.rest
    let typed := r.detect depth start.type
    ∃ rest, (r.statement options depth).value =
      typed.goOn (start.found ++ SqlTables.afterOpening (typed.level options depth).env (depth == 0)
        (r.bound ++ start.found.bound) start.type start.rest, rest) := by
  intro start typed
  obtain ⟨hbound, hstart⟩ := r.behind_opening options depth
  obtain ⟨rest, hrest⟩ :=
    (typed.goOn (start.found, start.rest)).value_afterOpening options depth start.type
  refine ⟨rest, ?_⟩
  unfold statement
  rw [Logged.value_bind, value_opening, Logged.value_bind, hrest, goOn_goOn, hbound, hstart]
  rfl

/-! ## The steps of the routines -/

theorem steps_tableList : (r.tableList options depth).steps =
    ((r.level options depth).tableList r.bound r.cursor.rest).steps := Logged.steps_andThen _ _

theorem steps_opening : (r.opening options depth).steps =
    ((r.level options depth).opening r.bound r.cursor.rest).steps := Logged.steps_andThen _ _

theorem steps_targets (type : StatementType) : (r.targets options depth type).steps =
    ((r.level options depth).targets r.bound type r.cursor.rest).steps := Logged.steps_andThen _ _

theorem steps_body : (r.body options depth).steps =
    ((r.level options depth).body (depth == 0) r.bound r.cursor.rest).steps := Logged.steps_andThen _ _

theorem steps_expression : (r.expression options depth).steps =
    ((r.level options depth).expression r.bound r.cursor.rest).steps := Logged.steps_andThen _ _

theorem steps_afterOpening (type : StatementType) :
    ((r.targets options depth type) >>= fun named => named.body options depth).steps =
      ((r.level options depth).afterOpening (depth == 0) r.bound type r.cursor.rest).steps := by
  have hnamed := targets_ahead ahead_bytes (r.level options depth).env r.bound type r.cursor.rest
  unfold Level.afterOpening
  refine Logged.steps_bind (r.steps_targets options depth type) ?_
  rw [value_targets, Level.value_targets, steps_body, rest_goOn hnamed, Logged.steps_andThen]
  rfl

/-- Behind the opening, a statement is read on the level that its type makes. -/
theorem steps_statement :
    let typed := r.detect depth (SqlTables.opening (r.level options depth).env r.bound r.cursor.rest).type
    (r.statement options depth).steps = (do
      let start ← (r.level options depth).opening r.bound r.cursor.rest
      (typed.level options depth).afterOpening (depth == 0) (r.bound ++ start.found.bound) start.type
        start.rest).steps := by
  intro typed
  obtain ⟨hbound, hstart⟩ := r.behind_opening options depth
  unfold statement
  refine Logged.steps_bind (r.steps_opening options depth) ?_
  rw [value_opening, Level.value_opening]
  simp only
  rw [steps_afterOpening, hbound, hstart]
  rfl

/-! ## Spans -/

/-- A query leaves the summary's type alone here, since no span is outside of parentheses. -/
theorem value_span (place : Place) :
    ∃ rest, (r.span options (depth + 1) place).value =
      r.goOn (SqlTables.span (r.level options (depth + 1)).env place r.bound r.cursor.rest, rest) := by
  unfold span SqlTables.span
  split
  · exact r.value_statement options (depth + 1)
  · cases place with
    | expression => exact ⟨[], r.value_expression options (depth + 1)⟩
    | tableList =>
        have hlist := tableList_ahead ahead_bytes (r.level options (depth + 1)).env r.bound r.cursor.rest
        simp only [Logged.value_bind]
        rw [value_tableList, value_body, rest_goOn hlist, goOn_goOn, fst_bodyTo]
        exact ⟨_, rfl⟩

/-- Inside of parentheses the type is the same all the time, so a span is read on one level. -/
theorem steps_span (place : Place) : (r.span options (depth + 1) place).steps =
    ((r.level options (depth + 1)).span place r.bound r.cursor.rest).steps := by
  unfold span Level.span
  split
  · rw [steps_statement]
    exact Logged.steps_bind rfl (Logged.steps_andThen _ _).symm
  · cases place with
    | expression => exact r.steps_expression options (depth + 1)
    | tableList =>
        have hlist := tableList_ahead ahead_bytes (r.level options (depth + 1)).env r.bound r.cursor.rest
        refine Logged.steps_bind (r.steps_tableList options (depth + 1)) ?_
        rw [value_tableList, Level.value_tableList, steps_body, rest_goOn hlist, Logged.steps_andThen]
        rfl

/-- A span is read by a reader of its own, one level further in, unless that is too deep. -/
theorem search_eq (place : Place) (span : Bytes) : r.search options depth place span = (do
    note (.search depth r.cursor.text span)
    if depth < options.maxDepth then
      note (.enter (depth + 1))
      let inner ← ({ r with cursor := .start span } : Reader).span options (depth + 1) place
      return { inner with cursor := r.cursor }
    else return r) := by
  unfold search Level.handOn
  -- The limit is counted down by the level and up by the reader.
  by_cases h : depth < options.maxDepth
  · let inner : Reader := { r with cursor := .start span }
    obtain ⟨rest, hvalue⟩ := inner.value_span options depth place
    have hsteps := inner.steps_span options depth place
    have hsearch : (r.level options depth).search place r.bound span =
        note (.enter (depth + 1)) >>= fun _ => (inner.level options (depth + 1)).span place r.bound span := by
      have hleft : options.maxDepth - depth = options.maxDepth - (depth + 1) + 1 := by omega
      rw [level, hleft]
      rfl
    rw [if_pos h, hsearch]
    refine Logged.ext_parts ?_ ?_
    · simp only [Logged.value_bind, Logged.value_pure, Level.value_span]
      rw [hvalue]
      rfl
    · rw [Logged.steps_andThen]
      refine Logged.steps_bind rfl (Logged.steps_bind rfl ?_)
      rw [Logged.steps_andThen]
      exact hsteps.symm
  · have hsearch : (r.level options depth).search place r.bound span = pure ∅ := by
      have hleft : options.maxDepth - depth = 0 := by omega
      rw [level, hleft]
      rfl
    rw [if_neg h, hsearch]
    exact Logged.ext_parts r.take_empty rfl

/-! ## Whole statements -/

/-- Read from its start with no name bound, a statement makes of a summary what `Summary.read` makes of it, in
    the steps of `reading`. -/
theorem statement_start (summary : Summary) (text : Bytes) :
    let read := (⟨summary, [], .start text⟩ : Reader).statement options 0
    read.value.summary = summary.read options text ∧
      read.steps = (reading options summary.type text).steps := by
  refine ⟨?_, ?_⟩
  · obtain ⟨rest, h⟩ := (⟨summary, [], .start text⟩ : Reader).value_statement options 0
    rw [h]
    simp only [env_level]
    rfl
  · rw [steps_statement]
    unfold reading
    refine Logged.steps_bind rfl ?_
    rw [Logged.steps_andThen, Level.value_opening, Level.value_opening]
    rfl

end Reader

end SqlTables
