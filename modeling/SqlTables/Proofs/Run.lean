import SqlTables.Proofs.Statement
import SqlTables.Proofs.Transparency

/-!
# `SqlTables.Proofs.Run` — statements read one after another

A summary that is not reset takes in one statement after another. The type it holds is all that one
statement tells the next ones, and of that type only whether it is known and whether it is `DELETE`; even
this shows only in a statement with a `USING`.

## Contents
- **`Summary.readAll`**: a run of statements.
- **`Held`** and **`statement_held`**: what the type held before a statement tells it.
- **`statement_without_using`**: a statement that is told nothing.
- **`read_eq`**: one step of a run, and **`readAll_law`**: a whole run.
-/

namespace SqlTables

open TokenSource

/-! ## Runs -/

namespace Summary

/-- Reads statements one after another, each with options of its own. -/
def readAll (summary : Summary) (run : List (Options × Bytes)) : Summary :=
  run.foldl (fun summary x => summary.read x.1 x.2) summary

theorem readAll_nil (summary : Summary) : summary.readAll [] = summary := rfl

theorem readAll_cons (summary : Summary) (x : Options × Bytes) (run : List (Options × Bytes)) :
    summary.readAll (x :: run) = (summary.read x.1 x.2).readAll run := rfl

theorem readAll_append (summary : Summary) (run more : List (Options × Bytes)) :
    summary.readAll (run ++ more) = (summary.readAll run).readAll more := List.foldl_append

end Summary

/-- The first type of a run that is known. -/
def firstKnown (types : List StatementType) : StatementType :=
  (types.find? (· ≠ .unknown)).getD .unknown

/-- The first known type of several is that of the first statement, or else of the others. -/
theorem firstKnown_cons (type : StatementType) (types : List StatementType) :
    firstKnown (type :: types) = type.orElse (firstKnown types) := by
  by_cases h : type = .unknown
  · subst h
    rfl
  · have hfind : (type :: types).find? (· ≠ .unknown) = some type :=
      List.find?_cons_of_pos (decide_eq_true h)
    rw [firstKnown, hfind, StatementType.orElse_of_ne_unknown h]
    rfl

/-- The first known type does not depend on how types are put together. -/
theorem orElse_assoc (a b c : StatementType) : (a.orElse b).orElse c = a.orElse (b.orElse c) := by
  cases a <;> rfl

/-! ## What a statement is told -/

/-- What the type held before a statement tells it. -/
inductive Held where
  /-- No type is known. -/
  | nothing
  /-- `USING` may start a list of tables. -/
  | delete
  /-- `USING` starts none. -/
  | other
  deriving DecidableEq

/-- What a type tells the next statement. -/
def StatementType.held : StatementType → Held
  | .unknown => .nothing
  | .delete => .delete
  | _ => .other

/-- One of the types that tell the same. -/
def Held.type : Held → StatementType
  | .nothing => .unknown
  | .delete => .delete
  | .other => .select

variable {σ : Type} [TokenSource σ]

/-- A statement is told no more of the type held before it. -/
theorem statement_held (options : Options) (held : StatementType) (b : List String) (s : σ) :
    statement options held b s = statement options held.held.type b s := by
  cases held <;> rfl

/-- Without a `USING` it makes no difference whether one could start a list. -/
theorem envRel_without_using {τ : Type} [TokenSource τ] [LawfulSource σ] [LawfulSource τ]
    (options : Options) (type type' : StatementType) :
    EnvRel (Without .USING) .same (.outer options type : Env σ) (.outer options type' : Env τ) := by
  have hbase : EnvRel (Without .USING) .same
      (Env.nested (σ := σ) options.lowerCaseNames (type == .delete) 0)
      (Env.nested (σ := τ) options.lowerCaseNames (type' == .delete) 0) :=
    { usingTables := by
        rintro w w' ⟨_, hne⟩ hw
        exact absurd hw hne
      record := by
        rintro b c n m rfl hname
        rw [hname.eq And.left]
        rfl
      names := by
        rintro w w' b c t u _ _ _ htu
        rw [htu.1.1]
        rfl
      search := fun _ _ _ => rfl }
  exact hbase.lift options.maxDepth

/-- Without a `USING` the type that is held from before does not matter. -/
theorem statement_without_using [LawfulSource σ] {s : σ}
    (h : ∀ t ∈ tokens s, t.keyword? ≠ some .USING) (options : Options) (held held' : StatementType)
    (b : List String) : statement options held b s = statement options held' b s := by
  have hfollows : Follows (Without .USING) s s := follows_without h
  have hsame : FindingsRel.same.found b b (statement options held b s)
      (statement options held' b s) :=
    statement_rel (envRel_without_using options held held') (envRel_without_using options _ _)
      rfl hfollows
  exact hsame

/-! ## Steps and runs -/

/-- What a statement adds, by what it is told. -/
def added (options : Options) (held : Held) (text : Bytes) : List TableReference :=
  (statement options held.type [] text).references

/-- A text without a `USING` adds what it has when it is read alone. -/
theorem added_without_using {text : Bytes} (h : ∀ t ∈ text.tokens, t.keyword? ≠ some .USING)
    (options : Options) (held : Held) :
    added options held text = (parse options text).references := by
  rw [← tokens_bytes] at h
  rw [added, parse_eq_statement, statement_without_using h options held.type .unknown]

/-- One step: the references so far stay in front, and a known type stays. -/
theorem read_eq (summary : Summary) (options : Options) (text : Bytes) :
    summary.read options text =
      { type := summary.type.orElse (parse options text).type
        references := summary.references ++ added options summary.type.held text } := by
  rw [Summary.read, extract_eq_statement, statement_held, parse_eq_statement]
  rfl

/-- The type of a run is the first known one, and that of the summary comes first. The induction is on the
    run. -/
theorem type_readAll (summary : Summary) (run : List (Options × Bytes)) :
    (summary.readAll run).type =
      summary.type.orElse (firstKnown (run.map fun x => (parse x.1 x.2).type)) := by
  induction run generalizing summary with
  | nil =>
      rw [Summary.readAll_nil]
      cases summary.type <;> rfl
  | cons x run ih =>
      rw [Summary.readAll_cons, ih, read_eq, List.map_cons, firstKnown_cons]
      exact orElse_assoc _ _ _

/-- The last text of a run adds its references to those that are there, as the type that is held tells. -/
theorem references_readAll_concat (summary : Summary) (run : List (Options × Bytes))
    (options : Options) (text : Bytes) :
    (summary.readAll (run ++ [(options, text)])).references =
      (summary.readAll run).references ++ added options (summary.readAll run).type.held text := by
  rw [Summary.readAll_append, Summary.readAll_cons, Summary.readAll_nil, read_eq]

/-- **Statements that are read one after another.** The type of a run is the first one that is known
    among those of its statements, each read on its own. Every statement leaves the references in
    front of it alone, and what it adds depends on the statements before it through no more than
    whether the type held is unknown, `DELETE` or another one; without a `USING` it adds what it
    holds when it is read on its own. -/
theorem readAll_law :
    ∃ added : Options → Held → Bytes → List TableReference,
      (∀ options held text, (∀ t ∈ text.tokens, t.keyword? ≠ some .USING) →
        added options held text = (parse options text).references) ∧
      ∀ run : List (Options × Bytes),
        (Summary.readAll {} run).type = firstKnown (run.map fun x => (parse x.1 x.2).type) ∧
        ∀ options text,
          (Summary.readAll {} (run ++ [(options, text)])).references =
            (Summary.readAll {} run).references ++
              added options (Summary.readAll {} run).type.held text := by
  refine ⟨added, ?_, ?_⟩
  · intro options held text h
    exact added_without_using h options held
  · intro run
    refine ⟨type_readAll {} run, ?_⟩
    intro options text
    exact references_readAll_concat {} run options text

/-- Behind an unknown statement and a `DELETE` the type stays, and a `SELECT` adds its own tables. -/
theorem readAll_law_delete :
    let run : List (Options × Bytes) := [({}, ascii "SHOW x"), ({}, ascii "DELETE FROM a USING b")]
    let text := ascii "SELECT 1 FROM c"
    (∀ t ∈ text.tokens, t.keyword? ≠ some .USING) ∧
      (Summary.readAll {} run).type = .delete ∧
      (Summary.readAll {} (run ++ [(({} : Options), text)])).references =
        (Summary.readAll {} run).references ++ (parse {} text).references := by
  intro run text
  have husing : ∀ t ∈ text.tokens, t.keyword? ≠ some .USING := by decide +kernel
  obtain ⟨added, hfree, hrun⟩ := readAll_law
  refine ⟨husing, ?_, ?_⟩
  · rw [(hrun run).1]
    decide +kernel
  · rw [(hrun run).2 {} text, hfree {} _ text husing]

end SqlTables
