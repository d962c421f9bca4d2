import SqlTables.Proofs.Hiding
import SqlTables.Proofs.Token.Closed

/-!
# `SqlTables.Proofs.CommonTables` — statements behind a `WITH` clause

A `WITH` clause adds what the bodies of its common tables hold and hides references of their names: in
the statement behind it, in the bodies behind a definition, and with `RECURSIVE` in the body of the
definition itself. A qualified reference is never hidden.

## Contents
- **`CommonTable`** and **`withText`**: a clause and the statement behind it, as they are written.
- **`commonTables_text`**: the definitions of the clause, one after another.
- **`statement_with`**: a statement behind a clause.
- **`parse_withText`**: the summary of both.
-/

namespace SqlTables

open TokenSource

/-! ## Clauses as they are written -/

/-- A common table of a `WITH` clause. -/
structure CommonTable where
  /-- The token that names it. -/
  name : Token
  /-- How the name is written. -/
  written : Bytes
  /-- What stands in its parenthesis. -/
  body : Bytes
  isIdentifier : name.isIdentifier = true
  reads : (written ++ ascii " ").nextToken? = some (name, ascii " ")
  /-- The parenthesis in front of the body is closed behind it. -/
  closed : (body ++ ascii ")").enclosed = (body, [])
  /-- The body has no clause of its own. -/
  plain : ∀ t ∈ body.tokens, t.keyword? ≠ some .WITH

namespace CommonTable

/-- The definition of the table. -/
def text (table : CommonTable) : Bytes :=
  table.written ++ ascii " AS (" ++ table.body ++ ascii ")"

/-- The references that the body holds on its own, as a span of the outermost level. -/
def references (options : Options) (table : CommonTable) : List TableReference :=
  ((Env.outer options .unknown).search .expression [] table.body).references

end CommonTable

/-- Further definitions and, on a new line, the statement behind the clause. -/
def behindTable : List CommonTable → Bytes → Bytes
  | [], main => '\n'.toUInt8 :: main
  | table :: more, main => ascii "," ++ (ascii " " ++ table.text ++ behindTable more main)

/-- A `WITH` clause and the statement behind it. -/
def withText (isRecursive : Bool) (first : CommonTable) (more : List CommonTable) (main : Bytes) :
    Bytes :=
  ascii "WITH" ++ ((if isRecursive then ascii " RECURSIVE" else []) ++
    (ascii " " ++ first.text ++ behindTable more main))

/-! ## Single definitions -/

variable {main : Bytes}

/-- The name of a definition is the next token behind a blank. -/
theorem next?_text (table : CommonTable) (z : Bytes) :
    next? (ascii " " ++ table.text ++ z) =
      some (table.name, ascii " AS (" ++ (table.body ++ ascii ")" ++ z)) := by
  have hreads := nextToken?_append table.reads (Or.inl (List.cons_ne_nil _ _))
    (ascii "AS (" ++ (table.body ++ ascii ")" ++ z))
  have hblank : isSeparator ' '.toUInt8 = true := by decide
  have hsplit : ascii " " ++ table.text ++ z =
      ' '.toUInt8 :: (table.written ++ ascii " " ++
        (ascii "AS (" ++ (table.body ++ ascii ")" ++ z))) := by
    have hopen : ascii " AS (" = ascii " " ++ ascii "AS (" := by decide
    rw [CommonTable.text, hopen]
    simp only [List.append_assoc]
    rfl
  rw [hsplit]
  exact (nextToken?_separator hblank _).trans hreads

theorem next?_as (inside : Bytes) :
    next? (ascii " AS (" ++ inside) = some (.word (ascii "AS"), ascii " (" ++ inside) := by
  have hread : (ascii " AS (").nextToken? = some (.word (ascii "AS"), ascii " (") := by
    decide +kernel
  exact nextToken?_append hread (Or.inl (List.cons_ne_nil _ _)) inside

theorem next?_paren (inside : Bytes) : next? (ascii " (" ++ inside) = some (.sym '(', inside) := by
  have hread : (ascii " (").nextToken? = some (.sym '(', []) := by decide +kernel
  refine nextToken?_append hread (Or.inr ⟨'('.toUInt8, rfl, ?_⟩) inside
  unfold opensComment
  decide

/-- The body of a definition starts behind its parenthesis. -/
theorem openBody_text (inside : Bytes) : openBody (skipSpan (ascii " AS (" ++ inside)) = .ok inside := by
  have hspan : acceptSym? '(' (ascii " AS (" ++ inside) = none := by
    rw [acceptSym?, accept?, next?_as]
    rfl
  have hword : acceptKeyword? (· == .AS) (ascii " AS (" ++ inside) = some (ascii " (" ++ inside) := by
    rw [acceptKeyword?, accept?, next?_as]
    rfl
  have hinside : acceptSym? '(' (ascii " (" ++ inside) = some inside := by
    rw [acceptSym?, accept?, next?_paren]
    rfl
  rw [skipSpan, hspan]
  simp only
  rw [openBody, hword]
  simp only
  rw [hinside]

/-! ## What a definition contributes -/

/-- What one definition contributes behind bound names. -/
def CommonTable.found (env : Env Bytes) (isRecursive : Bool) (bound : List String)
    (table : CommonTable) : Findings :=
  let name := [table.name.name env.lower]
  let early := Findings.ofNames (if isRecursive then name else [])
  let late := Findings.ofNames (if isRecursive then [] else name)
  early ++ env.search .expression (bound ++ early.bound) table.body ++ late

/-- A definition binds its own name and nothing else. -/
theorem bound_found (options : Options) (isRecursive : Bool) (bound : List String)
    (table : CommonTable) :
    (table.found (.outer options .unknown) isRecursive bound).bound =
      [table.name.name options.lowerCaseNames] := by
  have hplain : ∀ t ∈ tokens table.body, t.keyword? ≠ some .WITH := by
    rw [tokens_bytes]
    exact table.plain
  have hsearch : ∀ b, ((Env.outer options .unknown).search .expression b table.body).bound = [] :=
    bound_search hplain _ _ _ .expression
  unfold CommonTable.found
  simp only
  rw [Findings.bound_append, Findings.bound_append, hsearch, lower_outer]
  cases isRecursive <;> rfl

/-- A definition has the tables of its body, but for those that the names bound before it hide, and its own
    name if it is recursive. -/
theorem references_found (options : Options) (isRecursive : Bool) (bound : List String)
    (table : CommonTable) :
    (table.found (.outer options .unknown) isRecursive bound).references =
      visible (bound ++ if isRecursive then [table.name.name options.lowerCaseNames] else [])
        (table.references options) := by
  have hhiding : ∀ names, ((Env.outer options .unknown).search .expression names
      table.body).references = visible names (table.references options) :=
    fun names => (search_hiding names _ _ _ .expression table.body).2
  unfold CommonTable.found
  simp only
  rw [Findings.references_append, Findings.references_append, hhiding, lower_outer]
  exact List.append_nil _

/-- A definition is read up to its parenthesis; behind a comma another one follows. -/
theorem commonTables_text (env : Env Bytes) (isRecursive : Bool) (bound : List String)
    (table : CommonTable) (z : Bytes) :
    commonTables env isRecursive bound (ascii " " ++ table.text ++ z) =
      match acceptSym? ',' z with
      | none => (table.found env isRecursive bound, z)
      | some next =>
          let found := table.found env isRecursive bound
          let more := commonTables env isRecursive (bound ++ found.bound) next
          (found ++ more.1, more.2) := by
  have henclosed : enclosed (table.body ++ (ascii ")" ++ z)) = (table.body, z) := by
    rw [← List.append_assoc]
    exact enclosed_append table.closed z
  rw [commonTables_eq, next?_text, List.append_assoc]
  simp only
  rw [if_pos table.isIdentifier, openBody_text]
  simp only
  rw [henclosed]
  cases acceptSym? ',' z <;> rfl

/-! ## Clauses -/

/-- No comma follows the last definition. -/
theorem acceptComma_newline (h : main.tokens.head? ≠ some (.sym ',')) :
    acceptSym? ',' ('\n'.toUInt8 :: main) = none := by
  have hnext : next? ('\n'.toUInt8 :: main) = Bytes.nextToken? main :=
    nextToken?_separator (by decide) main
  rw [acceptSym?, accept?, hnext]
  cases hn : main.nextToken? with
  | none => rfl
  | some x =>
      rw [tokens_of_nextToken? hn, List.head?_cons] at h
      have hcomma : ¬ (x.1 == Token.sym ',') = true := fun he => h (congrArg some (beq_iff_eq.mp he))
      simp only
      rw [if_neg hcomma]

theorem next?_comma (z : Bytes) :
    next? (ascii "," ++ (ascii " " ++ z)) = some (.sym ',', ascii " " ++ z) := by
  have hread : (ascii ", ").nextToken? = some (.sym ',', ascii " ") := by decide +kernel
  exact nextToken?_append hread (Or.inl (List.cons_ne_nil _ _)) z

theorem acceptComma_comma (z : Bytes) :
    acceptSym? ',' (ascii "," ++ (ascii " " ++ z)) = some (ascii " " ++ z) := by
  rw [acceptSym?, accept?, next?_comma]
  rfl

/-- The names that definitions bind. -/
def boundBy (options : Options) (tables : List CommonTable) : List String :=
  tables.map fun table => table.name.name options.lowerCaseNames

/-- What the bodies of definitions hold, each one behind the names in front of it, and with `RECURSIVE`
    behind its own. -/
def bodyReferences (options : Options) (isRecursive : Bool) (bound : List String)
    (tables : List CommonTable) : List TableReference :=
  (tables.mapIdx fun i table =>
    visible (bound ++ (boundBy options tables).take (if isRecursive then i + 1 else i))
      (table.references options)).flatten

theorem bodyReferences_nil (options : Options) (isRecursive : Bool) (bound : List String) :
    bodyReferences options isRecursive bound [] = [] := rfl

/-- The tables of the first body, and those of the other ones behind the name that it binds. -/
theorem bodyReferences_cons (options : Options) (isRecursive : Bool) (bound : List String)
    (table : CommonTable) (more : List CommonTable) :
    bodyReferences options isRecursive bound (table :: more) =
      visible (bound ++ if isRecursive then [table.name.name options.lowerCaseNames] else [])
          (table.references options) ++
        bodyReferences options isRecursive (bound ++ [table.name.name options.lowerCaseNames])
          more := by
  unfold bodyReferences
  rw [List.mapIdx_cons, List.flatten_cons, boundBy, List.map_cons]
  cases isRecursive with
  | true => simp [boundBy]
  | false => simp [boundBy]

/-- All definitions of a clause. -/
theorem commonTables_behindTable (options : Options) (isRecursive : Bool) (bound : List String)
    (table : CommonTable) (more : List CommonTable) (h : main.tokens.head? ≠ some (.sym ',')) :
    commonTables (.outer options .unknown) isRecursive bound
        (ascii " " ++ table.text ++ behindTable more main) =
      (⟨bodyReferences options isRecursive bound (table :: more), boundBy options (table :: more)⟩,
        '\n'.toUInt8 :: main) := by
  induction more generalizing bound table with
  | nil =>
      rw [commonTables_text, behindTable, acceptComma_newline h]
      refine Prod.ext (Findings.ext_parts ?_ ?_) rfl
      · rw [bodyReferences_cons, bodyReferences_nil, List.append_nil]
        exact references_found options isRecursive bound table
      · exact bound_found options isRecursive bound table
  | cons next more ih =>
      rw [commonTables_text, behindTable, List.append_assoc (ascii " "), acceptComma_comma]
      simp only
      rw [← List.append_assoc, ih, bound_found]
      refine Prod.ext (Findings.ext_parts ?_ ?_) rfl
      · rw [Findings.references_append, references_found, ← bodyReferences_cons]
      · rw [Findings.bound_append, bound_found]
        rfl

theorem next?_recursive (z : Bytes) :
    next? (ascii " RECURSIVE" ++ (ascii " " ++ z)) =
      some (.word (ascii "RECURSIVE"), ascii " " ++ z) := by
  have hread : (ascii " RECURSIVE ").nextToken? = some (.word (ascii "RECURSIVE"), ascii " ") := by
    decide +kernel
  exact nextToken?_append hread (Or.inl (List.cons_ne_nil _ _)) z

/-- A `WITH` clause is read up to the line end in front of the main query: it has the tables of its bodies and
    binds the names of its definitions. -/
theorem withClause_withText (options : Options) (isRecursive : Bool) {first : CommonTable}
    (more : List CommonTable) (hfirst : first.name.keyword? ≠ some .RECURSIVE)
    (h : main.tokens.head? ≠ some (.sym ',')) :
    withClause (.outer options .unknown) []
        ((if isRecursive then ascii " RECURSIVE" else []) ++
          (ascii " " ++ first.text ++ behindTable more main)) =
      (⟨bodyReferences options isRecursive [] (first :: more), boundBy options (first :: more)⟩,
        '\n'.toUInt8 :: main) := by
  cases isRecursive with
  | true =>
      rw [List.append_assoc (ascii " ")]
      have haccept : ∀ z, acceptKeyword? (· == .RECURSIVE)
          (ascii " RECURSIVE" ++ (ascii " " ++ z)) = some (ascii " " ++ z) := by
        intro z
        rw [acceptKeyword?, accept?, next?_recursive]
        rfl
      rw [if_pos rfl, withClause, haccept, ← List.append_assoc]
      exact commonTables_behindTable options true [] first more h
  | false =>
      -- The first name is read in place of the word, and it is another one.
      have hname : ¬ first.name.isKeyword (· == .RECURSIVE) = true := by
        intro hk
        obtain ⟨k, hk, he⟩ := (Option.any_eq_true _ _).mp hk
        exact hfirst (beq_iff_eq.mp he ▸ hk)
      have haccept : acceptKeyword? (· == .RECURSIVE)
          (ascii " " ++ first.text ++ behindTable more main) = none := by
        rw [acceptKeyword?, accept?, next?_text]
        simp only
        rw [if_neg hname]
      rw [if_neg Bool.false_ne_true, List.nil_append, withClause, haccept]
      exact commonTables_behindTable options false [] first more h

/-! ## Statements behind a clause -/

/-- A statement with a clause in front of it is read behind the names that the clause binds. -/
theorem statement_with {σ : Type} [TokenSource σ] {s rest behind : σ} {t : Token}
    {found : Findings} (options : Options) (held : StatementType) (bound : List String) (hs : next? s = some (t, rest))
    (ht : t.keyword? = some .WITH)
    (hclause : withClause (.outer options held) bound rest = (found, behind)) :
    command s = command behind ∧
      statement options held bound s =
        found ++ statement options held (bound ++ found.bound) behind := by
  have hopening := opening_eq (.outer options held) bound s
  rw [hs] at hopening
  simp only [ht] at hopening
  rw [hclause] at hopening
  constructor
  · rw [← type_opening_eq_command (.outer options held) bound s, hopening]
    exact type_opening_eq_command _ _ behind
  · unfold statement
    simp only
    rw [hopening]
    simp only
    rw [Findings.append_assoc, Findings.bound_append, List.append_assoc]

/-- **A `WITH` clause in front of a statement.** The type is that of the statement. The references are
    those that each body holds on its own, without the unqualified ones to a name defined in front of it
    (or to its own name, with `RECURSIVE`), and behind them those of the statement, without the
    unqualified ones to any name of the clause. -/
theorem parse_withText (options : Options) (isRecursive : Bool) (first : CommonTable)
    (more : List CommonTable) (main : Bytes) (hfirst : first.name.keyword? ≠ some .RECURSIVE)
    (hmain : main.tokens.head? ≠ some (.sym ',')) :
    let tables := first :: more
    let names := tables.map fun table => table.name.name options.lowerCaseNames
    let bodies := tables.mapIdx fun i table =>
      visible (names.take (if isRecursive then i + 1 else i)) (table.references options)
    parse options (withText isRecursive first more main) =
      { type := (parse options main).type
        references := bodies.flatten ++ visible names (parse options main).references } := by
  intro tables names bodies
  have hclause := withClause_withText options isRecursive more hfirst hmain
  have hnext : next? (withText isRecursive first more main) =
      some (.word (ascii "WITH"), (if isRecursive then ascii " RECURSIVE" else []) ++
        (ascii " " ++ first.text ++ behindTable more main)) := by
    have hread : (ascii "WITH ").nextToken? = some (.word (ascii "WITH"), ascii " ") := by
      decide +kernel
    cases isRecursive with
    | true => exact nextToken?_append hread (Or.inl (List.cons_ne_nil _ _)) _
    | false => exact nextToken?_append hread (Or.inl (List.cons_ne_nil _ _)) _
  have hfollows : Follows Eq ('\n'.toUInt8 :: main) main := by
    unfold Follows
    rw [tokens_bytes, tokens_bytes, tokens_separator (by decide)]
    exact tracks_refl (fun _ => rfl) _
  obtain ⟨htype, hfound⟩ := statement_with options .unknown [] hnext rfl hclause
  rw [parse_eq_statement, parse_eq_statement, htype, command_follows hfollows, hfound,
    Findings.references_append, List.nil_append, statement_hiding hfollows]
  rfl

/-- The first body would name its own table, the second one names the first table twice, once in a
    schema, and the statement names both. -/
theorem parse_withText_recursive :
    let a : CommonTable :=
      { name := .word (ascii "a"), written := ascii "a", body := ascii "SELECT 1 FROM a, x"
        isIdentifier := rfl, reads := by decide +kernel, closed := by decide +kernel
        plain := by decide +kernel }
    let b : CommonTable :=
      { name := .quoted .backtick (ascii "b"), written := ascii "`b`"
        body := ascii "SELECT ')' FROM (SELECT 1 FROM A, s.a) y"
        isIdentifier := rfl, reads := by decide +kernel, closed := by decide +kernel
        plain := by decide +kernel }
    let main := ascii "DELETE FROM B USING z, s.b"
    let text := withText true a [b] main
    text = ascii "WITH RECURSIVE a AS (SELECT 1 FROM a, x), `b` AS (" ++
        ascii "SELECT ')' FROM (SELECT 1 FROM A, s.a) y)\nDELETE FROM B USING z, s.b" ∧
      a.name.keyword? ≠ some .RECURSIVE ∧ main.tokens.head? ≠ some (.sym ',') ∧
      parse {} text =
        { type := .delete
          references := [⟨none, "x"⟩, ⟨some "s", "a"⟩, ⟨none, "z"⟩, ⟨some "s", "b"⟩] } := by
  intro a b main text
  have hname : a.name.keyword? ≠ some .RECURSIVE := by decide +kernel
  have hmain : main.tokens.head? ≠ some (.sym ',') := by decide +kernel
  refine ⟨?_, hname, hmain, ?_⟩
  · decide +kernel
  · refine (parse_withText {} true a [b] main hname hmain).trans ?_
    decide +kernel

end SqlTables
