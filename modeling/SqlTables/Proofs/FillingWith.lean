import SqlTables.Proofs.CommonTables
import SqlTables.Proofs.Filling

/-!
# `SqlTables.Proofs.FillingWith` — a `WITH` clause behind a table

A `WITH` clause binds names only where a statement or a parenthesis opens. Behind the table that a command
fills its words are passed one by one and the bodies of its definitions are searched, so that their
references and those of the query behind the clause all count, those to the names of the clause too.

## Contents
- **`Definition`** and **`WithClause`**: a clause as a tree, with its tokens and its names.
- **`parts`** and **`behindNames`**: what bodies and query hold, without and behind the names.
- **`references_body_definitions`**: the clause in the rest of a statement.
- **`commonTables_definitions`**: the clause where a statement opens.
- **`parse_filling_with`**: a command, and the query that it takes as a statement of its own.
-/

namespace SqlTables

open TokenSource Grammar

/-! ## Clauses as trees -/

/-- A definition of a `WITH` clause. Its name is no word that starts a list of tables. -/
structure Definition where
  name : { t : Token // t.isIdentifier = true ∧ ¬ StartsTables t }
  columns : Option Names
  as : KeywordToken (· == .AS)
  /-- Any tokens with every parenthesis closed. -/
  body : { ts : List Token // closers? ts = some 0 }

/-- A `WITH` clause. -/
structure WithClause where
  word : KeywordToken (· == .WITH)
  recursive : Option (KeywordToken (· == .RECURSIVE))
  first : Definition
  more : List Definition
  /-- Without `RECURSIVE` the first name is not this word. -/
  unambiguous : recursive = none → first.name.1.isKeyword (· == .RECURSIVE) = false

/-- The columns of a definition, in parentheses. -/
def columnTokens (columns : Option Names) : List Token :=
  columns.elim [] fun names => enclose names.tokens

/-- The name that the definition binds. -/
def Definition.binds (lower : Bool) (d : Definition) : String := d.name.1.name lower

def Definition.tokens (d : Definition) : List Token :=
  d.name.1 :: (columnTokens d.columns ++ d.as.1 :: enclose d.body.1)

theorem Definition.tokens_append (d : Definition) (z : List Token) :
    d.tokens ++ z = d.name.1 :: (columnTokens d.columns ++ d.as.1 :: (enclose d.body.1 ++ z)) := by
  rw [Definition.tokens, List.cons_append, List.append_assoc, List.cons_append]

/-- Further definitions, with a comma in front of each. -/
def furtherTokens (more : List Definition) : List Token := more.flatMap fun d => .sym ',' :: d.tokens

theorem furtherTokens_cons (next : Definition) (more : List Definition) (z : List Token) :
    furtherTokens (next :: more) ++ z = .sym ',' :: (next.tokens ++ (furtherTokens more ++ z)) := by
  rw [furtherTokens, List.flatMap_cons, List.cons_append, List.cons_append, List.append_assoc]
  rfl

namespace WithClause

def tokens (clause : WithClause) : List Token :=
  clause.word.1 :: (words clause.recursive.toList ++ (clause.first.tokens ++ furtherTokens clause.more))

def definitions (clause : WithClause) : List Definition := clause.first :: clause.more

def isRecursive (clause : WithClause) : Bool := clause.recursive.isSome

/-- The names that the clause binds. -/
def names (clause : WithClause) (lower : Bool) : List String := clause.definitions.map (·.binds lower)

end WithClause

/-! ## What a clause and its query hold -/

/-- How the body of a definition is searched. -/
def Definition.search (options : Options) (bound : List String) (d : Definition) : Findings :=
  (Env.outer options .select).search .expression bound d.body.1

/-- What each body and the query behind the clause hold if the clause binds no name. A name that a clause
    inside a body binds still hides references behind it. -/
def parts (options : Options) (main : Bytes) : List String → List Definition →
    List (List TableReference)
  | inner, [] => [visible inner (parse options main).references]
  | inner, d :: more =>
      visible inner (d.search options []).references ::
        parts options main (inner ++ (d.search options []).bound) more

/-- The same behind names: all parts are behind `own`, and a body is behind the names in front of it and,
    with `RECURSIVE`, its own. -/
def behindNames (isRecursive : Bool) (own names : List String) (parts : List (List TableReference)) :
    List (List TableReference) :=
  parts.mapIdx fun i part => visible (own ++ names.take (if isRecursive then i + 1 else i)) part

/-- The first of the definitions hides its own name only if it is recursive, and the ones behind it hide it in
    any case. -/
theorem behindNames_cons (isRecursive : Bool) (own names : List String) (name : String)
    (part : List TableReference) (more : List (List TableReference)) :
    behindNames isRecursive own (name :: names) (part :: more) =
      visible (own ++ if isRecursive then [name] else []) part ::
        behindNames isRecursive (own ++ [name]) names more := by
  unfold behindNames
  rw [List.mapIdx_cons]
  cases isRecursive with
  | true => simp
  | false => simp

/-- The query is behind all names. -/
theorem flatten_behindNames_last (isRecursive : Bool) (own : List String)
    (part : List TableReference) :
    (behindNames isRecursive own [] [part]).flatten = visible own part := by
  simp [behindNames]

variable {main : Bytes}

/-- Names that are bound outside of a body hide tables in it, and do not change what it binds. -/
theorem search_bound_names (options : Options) (bound : List String) (d : Definition) :
    (d.search options bound).bound = (d.search options []).bound ∧
      (d.search options bound).references = visible bound (d.search options []).references :=
  search_hiding bound _ _ _ .expression d.body.1

/-! ## Lists of parts -/

section

variable {α : Type} {a b c d : List α}

/-- Parts of two lists make up both lists only if each of them is the whole. -/
theorem append_eq_append_of_sublist (hab : a.Sublist b) (hcd : c.Sublist d) :
    b ++ d = a ++ c ↔ a = b ∧ c = d := by
  constructor
  · intro h
    have hlen := congrArg List.length h
    have hle := hab.length_le
    have hle' := hcd.length_le
    rw [List.length_append, List.length_append] at hlen
    exact ⟨hab.eq_of_length (by omega), hcd.eq_of_length (by omega)⟩
  · rintro ⟨rfl, rfl⟩
    rfl

/-- If every part of a list only loses entries, so does the list. -/
theorem flatten_mapIdx_sublist {f : Nat → List α → List α} (h : ∀ i x, (f i x).Sublist x)
    (xs : List (List α)) : (xs.mapIdx f).flatten.Sublist xs.flatten := by
  induction xs generalizing f with
  | nil => exact List.Sublist.refl []
  | cons x xs ih =>
      rw [List.mapIdx_cons]
      exact (h 0 x).append (ih fun i => h (i + 1))

/-- If every part of a list only loses entries, the list stays as it is just where each part does. -/
theorem flatten_eq_flatten_mapIdx_iff {f : Nat → List α → List α} (h : ∀ i x, (f i x).Sublist x)
    (xs : List (List α)) : xs.flatten = (xs.mapIdx f).flatten ↔ xs.mapIdx f = xs := by
  induction xs generalizing f with
  | nil => exact iff_of_true rfl rfl
  | cons x xs ih =>
      have hrest := flatten_mapIdx_sublist (fun i => h (i + 1)) xs
      rw [List.mapIdx_cons, List.flatten_cons, List.flatten_cons,
        append_eq_append_of_sublist (h 0 x) hrest, eq_comm (b := xs.flatten), ih fun i => h (i + 1),
        List.cons.injEq]

end

/-! ## Behind a table -/

/-- The names of the columns of a definition have no table. -/
theorem body_columns (options : Options) (bound : List String) (columns : Option Names)
    (z : List Token) :
    body (.outer options .select) true bound (columnTokens columns ++ z) =
      body (.outer options .select) true bound z := by
  cases columns with
  | none => rfl
  | some names => exact body_names _ _ _ true bound names z

/-- Behind the name of a definition no modifier of `SELECT` comes next. -/
theorem starts_columns (columns : Option Names) (as : KeywordToken (· == .AS)) (z : List Token) :
    Starts (fun t => t.isKeyword Keyword.isSelectModifier = false)
      (columnTokens columns ++ as.1 :: z) := by
  cases columns with
  | none => exact starts_cons (isKeyword_disjoint (forall_keyword (by decide)) as.2)
  | some names => exact starts_cons rfl

/-- Of a definition only the body counts. -/
theorem body_definition (options : Options) (bound : List String) (d : Definition) (z : List Token) :
    body (.outer options .select) true bound (d.tokens ++ z) =
      d.search options bound ++
        body (.outer options .select) true (bound ++ (d.search options bound).bound) z := by
  have hu : (Env.outer options .select : Env (List Token)).usingTables = false :=
    usingTables_nested _ _ _
  have hname := ne_sym_of_isIdentifier d.name.2.1
  have has := ne_sym_of_isKeyword d.as.2
  have hquiet : ¬ StartsTables d.as.1 := by
    rw [StartsTables, isKeyword_disjoint (forall_keyword (by decide)) d.as.2]
    exact Bool.false_ne_true
  have hspan : enclosed (d.body.1 ++ .sym ')' :: z) = (d.body.1, z) :=
    closeSpan_balanced (balanced_of_closers? d.body.2) z
  have hopen : Starts (fun t => t.isKeyword Keyword.isSelectModifier = false)
      (enclose d.body.1 ++ z) := starts_cons rfl
  rw [d.tokens_append, body_passed hu (hname '(') (hname ';') d.name.2.2 (starts_columns _ _ _),
    body_columns, body_passed hu (has '(') (has ';') hquiet hopen, enclose_append,
    body_top (by decide), clause_open, hspan]
  rfl

/-- Read behind a target, a query has its own tables but for those that bound names hide. -/
theorem references_body_query (options : Options) (hmain : BareQuery main.tokens)
    (bound : List String) :
    (body (.outer options .select) true bound main.tokens).references =
      visible bound (parse options main).references := by
  rw [← statement_eq_body options bound hmain, parse_eq_tokens]
  exact statement_hiding (follows_refl _) options .unknown bound

/-- The definitions and the query behind them. -/
theorem references_body_definitions (options : Options) (hmain : BareQuery main.tokens)
    (inner : List String) (d : Definition) (more : List Definition) :
    (body (.outer options .select) true inner
        (d.tokens ++ (furtherTokens more ++ main.tokens))).references =
      (parts options main inner (d :: more)).flatten := by
  induction more generalizing inner d with
  | nil =>
      obtain ⟨hbound, hreferences⟩ := search_bound_names options inner d
      rw [body_definition, Findings.references_append, hbound, hreferences]
      show _ ++ (body _ true _ main.tokens).references = _
      rw [references_body_query options hmain]
      simp only [parts, List.flatten_cons, List.flatten_nil, List.append_nil]
  | cons next more ih =>
      obtain ⟨hbound, hreferences⟩ := search_bound_names options inner d
      have hcomma : ∀ z, body (.outer options .select) true (inner ++ (d.search options []).bound)
          (Token.sym ',' :: z) = body (.outer options .select) true
            (inner ++ (d.search options []).bound) z :=
        fun z => body_passes (next?_cons _ z) (by decide) rfl
      rw [body_definition, Findings.references_append, hbound, hreferences, furtherTokens_cons,
        hcomma, ih]
      rfl

/-! ## Where a statement opens -/

/-- What a definition contributes behind bound names. -/
def Definition.found (options : Options) (isRecursive : Bool) (bound : List String) (d : Definition) :
    Findings :=
  let name := [d.binds options.lowerCaseNames]
  let early := Findings.ofNames (if isRecursive then name else [])
  let late := Findings.ofNames (if isRecursive then [] else name)
  early ++ d.search options (bound ++ early.bound) ++ late

/-- A definition is read up to its parenthesis; behind a comma another one follows. -/
theorem commonTables_definition (options : Options) (isRecursive : Bool) (bound : List String)
    (d : Definition) (z : List Token) :
    commonTables (.outer options .select) isRecursive bound (d.tokens ++ z) =
      match acceptSym? ',' z with
      | none => (d.found options isRecursive bound, z)
      | some next =>
          let found := d.found options isRecursive bound
          let more := commonTables (.outer options .select) isRecursive (bound ++ found.bound) next
          (found ++ more.1, more.2) := by
  -- The columns are passed with their parentheses, and the body up to its own.
  have hspan : skipSpan (columnTokens d.columns ++ d.as.1 :: (enclose d.body.1 ++ z)) =
      d.as.1 :: (enclose d.body.1 ++ z) := by
    cases d.columns with
    | none => exact skipSpan_stop (starts_cons (ne_sym_of_isKeyword d.as.2 '('))
    | some names => exact skipSpan_enclose (balanced_names names) _
  have hopen : openBody (d.as.1 :: (enclose d.body.1 ++ z)) = .ok (d.body.1 ++ .sym ')' :: z) := by
    rw [openBody, acceptKeyword?_cons d.as.2, enclose_append]
    rfl
  have henclosed : enclosed (d.body.1 ++ .sym ')' :: z) = (d.body.1, z) :=
    closeSpan_balanced (balanced_of_closers? d.body.2) z
  rw [d.tokens_append, commonTables_eq, next?_cons]
  simp only
  rw [if_pos d.name.2.1, hspan, hopen]
  simp only
  rw [henclosed, lower_outer]
  cases acceptSym? ',' z <;> rfl

/-- The word `RECURSIVE` is taken where it stands, and is not the first name. -/
theorem withClause_definitions (env : Env (List Token)) (bound : List String) (clause : WithClause)
    (z : List Token) :
    withClause env bound (words clause.recursive.toList ++ (clause.first.tokens ++ z)) =
      commonTables env clause.isRecursive bound (clause.first.tokens ++ z) := by
  unfold withClause WithClause.isRecursive
  cases h : clause.recursive with
  | some recursive =>
      have haccept : acceptKeyword? (· == .RECURSIVE)
          (words [recursive] ++ (clause.first.tokens ++ z)) = some (clause.first.tokens ++ z) :=
        acceptKeyword?_cons recursive.2 _
      rw [Option.toList_some, haccept]
      rfl
  | none =>
      have hfirst : Starts (fun t => t.isKeyword (· == .RECURSIVE) = false)
          (clause.first.tokens ++ z) := starts_cons (clause.unambiguous h)
      have haccept : acceptKeyword? (· == .RECURSIVE)
          (words ([] : List (KeywordToken (· == .RECURSIVE))) ++ (clause.first.tokens ++ z)) = none :=
        acceptKeyword?_stop hfirst
      rw [Option.toList_none, haccept]
      rfl

/-- No query starts with a comma. -/
theorem acceptComma_query {s : List Token} (h : BareQuery s) : acceptSym? ',' s = none := by
  refine acceptSym?_stop ?_
  cases h with
  | select hk => exact starts_cons (ne_sym_of_isIdentifier (Token.isIdentifier_of_keyword? hk) ',')
  | parenthesized _ => exact starts_cons (by decide)

section

variable {bound own inner : List String}

/-- A definition binds its name and what its body binds. -/
theorem mem_bound_found (hb : ∀ name, name ∈ bound ↔ name ∈ own ++ inner) (options : Options)
    (isRecursive : Bool) (d : Definition) (name : String) :
    name ∈ bound ++ (d.found options isRecursive bound).bound ↔
      name ∈ own ++ [d.binds options.lowerCaseNames] ++ (inner ++ (d.search options []).bound) := by
  have hbound := fun names => (search_bound_names options names d).1
  unfold Definition.found
  simp only
  rw [Findings.bound_append, Findings.bound_append, hbound]
  cases isRecursive with
  | true =>
      simp only [Findings.ofNames, List.mem_append, hb, List.not_mem_nil, if_true]
      tauto
  | false =>
      simp only [Findings.ofNames, List.mem_append, hb, List.not_mem_nil, Bool.false_eq_true, if_false]
      tauto

/-- With `RECURSIVE` the body is behind the name as well. -/
theorem references_found_definition (hb : ∀ name, name ∈ bound ↔ name ∈ own ++ inner)
    (options : Options) (isRecursive : Bool) (d : Definition) :
    (d.found options isRecursive bound).references =
      visible (own ++ if isRecursive then [d.binds options.lowerCaseNames] else [])
        (visible inner (d.search options []).references) := by
  have hreferences := fun names => (search_bound_names options names d).2
  unfold Definition.found
  simp only
  rw [Findings.references_append, Findings.references_append, hreferences, ← visible_visible]
  refine (List.append_nil _).trans (visible_congr (fun name => ?_) _)
  simp only [Findings.ofNames, List.mem_append, hb]
  tauto

/-- The definitions and the query behind them, where `own` names and those that bodies bind are bound. -/
theorem commonTables_definitions (options : Options) (isRecursive : Bool)
    (hmain : BareQuery main.tokens) (hb : ∀ name, name ∈ bound ↔ name ∈ own ++ inner)
    (d : Definition) (more : List Definition) :
    ∃ found, commonTables (.outer options .select) isRecursive bound
        (d.tokens ++ (furtherTokens more ++ main.tokens)) = (found, main.tokens) ∧
      found.references ++ visible (bound ++ found.bound) (parse options main).references =
        (behindNames isRecursive own ((d :: more).map (·.binds options.lowerCaseNames))
          (parts options main inner (d :: more))).flatten := by
  -- On the further definitions: each of them binds its name for those behind it and for the query.
  induction more generalizing bound own inner d with
  | nil =>
      refine ⟨d.found options isRecursive bound, ?_, ?_⟩
      · show commonTables _ isRecursive bound (d.tokens ++ main.tokens) = _
        rw [commonTables_definition, acceptComma_query hmain]
      · have hquery := (visible_congr (mem_bound_found hb options isRecursive d)
          (parse options main).references).trans (visible_visible _ _ _)
        rw [references_found_definition hb, hquery,
          ← flatten_behindNames_last isRecursive (own ++ [d.binds options.lowerCaseNames])]
        exact (congrArg List.flatten (behindNames_cons _ _ _ _ _ _)).symm
  | cons next more ih =>
      obtain ⟨found, hread, hfound⟩ := ih (mem_bound_found hb options isRecursive d) next
      have hcomma : ∀ z, acceptSym? ',' (Token.sym ',' :: z) = some z := fun z => rfl
      refine ⟨d.found options isRecursive bound ++ found, ?_, ?_⟩
      · rw [furtherTokens_cons, commonTables_definition, hcomma]
        simp only
        rw [hread]
      · rw [Findings.references_append, Findings.bound_append, ← List.append_assoc bound,
          List.append_assoc, hfound, references_found_definition hb]
        exact (congrArg List.flatten (behindNames_cons _ _ _ _ _ _)).symm

end

/-! ## Whole texts -/

/-- The clause and its query as a statement. -/
theorem parse_withClause (options : Options) {query : Bytes} (clause : WithClause)
    (hquery : query.tokens = clause.tokens ++ main.tokens) (hmain : BareQuery main.tokens) :
    parse options query =
      { type := .select
        references := (behindNames clause.isRecursive [] (clause.names options.lowerCaseNames)
          (parts options main [] clause.definitions)).flatten } := by
  have hempty : ∀ name, name ∈ ([] : List String) ↔ name ∈ ([] : List String) ++ [] :=
    fun _ => Iff.rfl
  have henv : (Env.outer options .unknown : Env (List Token)) = .outer options .select :=
    outer_eq_select (by decide) options
  obtain ⟨found, hread, hfound⟩ :=
    commonTables_definitions options clause.isRecursive hmain hempty clause.first clause.more
  have hclause := withClause_definitions (.outer options .unknown) [] clause
    (furtherTokens clause.more ++ main.tokens)
  rw [henv, hread, ← henv] at hclause
  -- The opening is made of the clause alone, and the main query is read behind its names.
  have hnext : next? query.tokens = some (clause.word.1, words clause.recursive.toList ++
      (clause.first.tokens ++ (furtherTokens clause.more ++ main.tokens))) := by
    rw [hquery, WithClause.tokens, List.cons_append, List.append_assoc, List.append_assoc]
    rfl
  obtain ⟨htype, hstatement⟩ := statement_with options .unknown [] hnext
    (keyword?_of_isKeyword clause.word.2) hclause
  rw [parse_eq_tokens, htype, command_bareQuery hmain, hstatement, Findings.references_append,
    statement_hiding (tracks_refl (fun _ => rfl) _)]
  rw [parse_eq_tokens] at hfound
  exact congrArg (Summary.mk .select) hfound

/-- The clause and its query behind a table. -/
theorem parse_filling_withClause (options : Options) (f : Filling) (table : Bytes) {query : Bytes}
    (clause : WithClause) (hquery : query.tokens = clause.tokens ++ main.tokens)
    (hmain : BareQuery main.tokens) :
    parse options (f.text table query) =
      { type := f.type
        references := ⟨none, recordedName options.lowerCaseNames table⟩ ::
          (parts options main [] clause.definitions).flatten } := by
  have hdot : Starts (· ≠ .sym '.') query.tokens := by
    rw [hquery]
    exact starts_cons (ne_sym_of_isKeyword clause.word.2 '.')
  rw [parse_filling options f table hdot, hquery, WithClause.tokens, List.cons_append,
    body_word (forall_keyword (by decide)), List.append_assoc,
    body_words (forall_keyword (by decide)), List.append_assoc,
    references_body_definitions options hmain]
  rfl

/-- **A `WITH` clause behind a table.** Behind the table that a command fills a query with a `WITH` clause
    adds what each body and the query behind the clause hold; on its own it adds the same without what the
    names of the clause hide there. So the command has the references of the query behind its table if and
    only if no name of the clause hides a reference of the query. -/
theorem parse_filling_with (options : Options) (f : Filling) (table : Bytes) {query main : Bytes}
    (clause : WithClause) (hquery : query.tokens = clause.tokens ++ main.tokens)
    (htype : (parse options main).type = .select)
    (hwith : Starts (fun t => t.keyword? ≠ some .WITH) main.tokens) :
    let target : TableReference := ⟨none, recordedName options.lowerCaseNames table⟩
    let held := parts options main [] clause.definitions
    let behind := behindNames clause.isRecursive [] (clause.names options.lowerCaseNames) held
    parse options (f.text table query) = { type := f.type, references := target :: held.flatten } ∧
      parse options query = { type := .select, references := behind.flatten } ∧
      ((parse options (f.text table query)).references = target :: (parse options query).references ↔
        behind = held) := by
  intro target held behind
  have hmain : BareQuery main.tokens := by
    rw [parse_eq_tokens] at htype
    exact bareQuery_of_command hwith htype
  have hcommand := parse_filling_withClause options f table clause hquery hmain
  have halone := parse_withClause options clause hquery hmain
  refine ⟨hcommand, halone, ?_⟩
  rw [hcommand, halone, List.cons_inj_right]
  exact flatten_eq_flatten_mapIdx_iff (fun _ _ => List.filter_sublist) held

/-- The query refers to the name that the clause binds: on its own it records no table of this name, behind
    the table it does. -/
theorem parse_filling_with_insert :
    let a : Definition :=
      { name := ⟨.word (ascii "a"), by decide⟩
        columns := some ⟨⟨.word (ascii "c"), by decide⟩, []⟩
        as := ⟨.word (ascii "AS"), by decide⟩
        body := ⟨(ascii "SELECT 1 FROM b").tokens, by decide +kernel⟩ }
    let clause : WithClause :=
      { word := ⟨.word (ascii "WITH"), by decide⟩
        recursive := none
        first := a
        more := []
        unambiguous := fun _ => by decide }
    let main := ascii "SELECT 1 FROM a"
    let query := ascii "WITH a (c) AS (SELECT 1 FROM b) SELECT 1 FROM a"
    query.tokens = clause.tokens ++ main.tokens ∧ (parse {} main).type = .select ∧
      Starts (fun t => t.keyword? ≠ some .WITH) main.tokens ∧
      parse {} query = { type := .select, references := [⟨none, "b"⟩] } ∧
      parse {} (Filling.insertInto.text (ascii "t") query) =
        { type := .insert, references := [⟨none, "t"⟩, ⟨none, "b"⟩, ⟨none, "a"⟩] } := by
  intro a clause main query
  have hquery : query.tokens = clause.tokens ++ main.tokens := by decide +kernel
  have htype : (parse {} main).type = .select := by decide +kernel
  have hwith : Starts (fun t => t.keyword? ≠ some .WITH) main.tokens := by
    unfold Starts
    decide +kernel
  obtain ⟨hcommand, halone, _⟩ :=
    parse_filling_with {} .insertInto (ascii "t") clause hquery htype hwith
  refine ⟨hquery, htype, hwith, halone.trans ?_, hcommand.trans ?_⟩
  · decide +kernel
  · decide +kernel

end SqlTables
