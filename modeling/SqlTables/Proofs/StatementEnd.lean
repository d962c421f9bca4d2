import SqlTables.Proofs.Grammar.Leaves
import SqlTables.Proofs.StatementEnd.Cut
import SqlTables.Proofs.Token.Closed

/-!
# `SqlTables.Proofs.StatementEnd` — where a statement ends

A `;` outside parentheses should end a statement, so that nothing behind it counts. It does, unless the
statement breaks off in front of it in one of the ways that `CutStatement` lists; then the `;` is taken
for what is missing, and the next statement is read as a part of this one.

## Contents
- **`CutStatement`** and **`extract_followed`**, **`extract_cut`**: a `;` that ends a statement, and one
  that does not.
- **`not_cutStatement`**: a statement without `FOR` that changes no schema does not break off.
- **`probe`**: a next statement whose table is found wherever it is read.
- **`parse_semicolon`** and **`parse_semicolon_iff`**: whole texts.
-/

namespace SqlTables

open TokenSource

variable {s : List Token} {options : Options} {held : StatementType}

/-! ## Statements of tokens -/

/-- How the tokens of a statement of a type are read outside parentheses. -/
def topEnv (options : Options) (type : StatementType) : Env (List Token) :=
  .nested options.lowerCaseNames (type == .delete) options.maxDepth

theorem faithful_topEnv (options : Options) (type : StatementType) :
    (topEnv options type).Faithful := faithful_nested _ _ _

theorem extract_eq (options : Options) (held : StatementType) (s : List Token) :
    extract options held s =
      let start := opening (topEnv options held) [] s
      let known := held.orElse start.type
      (known, (start.found ++
        afterOpening (topEnv options known) true start.found.bound start.type start.rest).references) :=
  rfl

/-- A statement breaks off where the next token is taken unseen. -/
def CutStatement (options : Options) (held : StatementType) (s : List Token) : Prop :=
  let start := opening (topEnv options held) [] s
  CutRest (topEnv options (held.orElse start.type)) start.found.bound start.type start.rest

/-- What follows a statement that does not break off does not count. -/
theorem extract_followed (h : Closed s) (hc : ¬ CutStatement options held s) (z : List Token) :
    extract options held (followed s z) = extract options held s := by
  have henv := faithful_topEnv options
  have hrest : Closed (opening (topEnv options held) [] s).rest :=
    closed_of_suffix (suffix_of_reads (opening_reads (henv held) [] s)) h
  rw [extract_eq, extract_eq, opening_followed _ [] (henv held) h]
  simp only
  rw [afterOpening_followed (henv _) hrest hc]

/-- What follows a statement that breaks off counts, if it starts like the end of a parenthesis. -/
theorem extract_cut (h : Closed s) (hc : CutStatement options held s) (z : List Token) :
    ∃ type bound, (extract options held (followed s (.sym ')' :: z))).2 =
      (extract options held s).2 ++
        (body (topEnv options type) true bound (.sym ')' :: z)).references := by
  have henv := faithful_topEnv options
  have hrest : Closed (opening (topEnv options held) [] s).rest :=
    closed_of_suffix (suffix_of_reads (opening_reads (henv held) [] s)) h
  obtain ⟨bound, hb⟩ := afterOpening_cut (henv _) hrest hc z
  refine ⟨held.orElse (opening (topEnv options held) [] s).type, bound, ?_⟩
  rw [extract_eq, extract_eq, opening_followed _ [] (henv held) h]
  simp only
  rw [hb, ← Findings.append_assoc]
  rfl

/-! ## Statements that cannot break off -/

/-- Tokens among which there is a `FOR`, as in the purpose of an index hint. -/
def HasFor (s : List Token) : Prop := ∃ t ∈ s, t.isKeyword (· == .FOR) = true

theorem HasFor.of_suffix {rest : List Token} (h : HasFor rest) (hs : rest <:+ s) : HasFor s := by
  obtain ⟨t, ht, hfor⟩ := h
  exact ⟨t, hs.subset ht, hfor⟩

theorem hasFor_of_cutPurpose (h : CutPurpose s) : HasFor s := by
  cases h with
  | purpose hw => exact ⟨_, List.mem_cons_self, hw⟩
  | sorting hw hv => exact ⟨_, List.mem_cons_self, hw⟩

/-- Index hints break off in a purpose only, which starts with `FOR`. -/
theorem hasFor_of_cutHints (h : CutHints s) : HasFor s := by
  induction h with
  | @here s hh =>
      obtain ⟨index, rest, ha, hi, hp⟩ := hh
      exact (hasFor_of_cutPurpose hp).of_suffix ((accept?_suffix hi).trans (accept?_suffix ha))
  | @next s rest hi hr ih => exact ih.of_suffix (indexHint?_suffix hi)

variable {env : Env (List Token)} {bound : List String}

/-- So does a list of tables, whichever of its items it is. -/
theorem hasFor_of_cutList (henv : env.Faithful) (h : CutList env bound s) : HasFor s := by
  induction h with
  | @item bound s hi =>
      obtain ⟨x, hx, hh⟩ := hi
      exact (hasFor_of_cutHints hh).of_suffix (itemStart?_suffix hx)
  | @next bound s rest next found hi hn hr ih =>
      apply ih.of_suffix
      exact (nextTable?_suffix hn).trans (suffix_of_reads (tableItem?_reads henv hi))

/-- Neither does the rest of a statement break off without this word. -/
theorem hasFor_of_cutBody (henv : env.Faithful) (h : CutBody env bound s) : HasFor s := by
  induction h with
  | @list bound t rest hl hr => exact (hasFor_of_cutList henv hr).of_suffix (List.suffix_cons t rest)
  | @next bound t rest ht hr ih =>
      apply ih.of_suffix
      exact (suffix_of_reads (clause_reads henv bound t rest)).trans (List.suffix_cons t rest)

/-- Only a schema change breaks off without a `FOR`. -/
theorem hasFor_of_cutRest (henv : env.Faithful) {type : StatementType} (hddl : type.isDdl = false)
    (h : CutRest env bound type s) : HasFor s := by
  cases h with
  | inl ht =>
      cases type with
      | update =>
          exact (hasFor_of_cutList henv ht).of_suffix (skipKeywords_suffix _ s)
      | alter | drop | create | truncate => cases hddl
      | insert | replace | select | delete | unknown => exact ht.elim
  | inr hb =>
      exact (hasFor_of_cutBody henv hb).of_suffix (suffix_of_reads (targets_reads henv bound type s))

/-- A query or a change of rows without index hints for a purpose never breaks off. -/
theorem not_cutStatement (hddl : (opening (topEnv options held) [] s).type.isDdl = false)
    (hfor : ∀ t ∈ s, t.isKeyword (· == .FOR) = false) : ¬ CutStatement options held s := by
  intro hc
  have hrest : (opening (topEnv options held) [] s).rest <:+ s :=
    suffix_of_reads (opening_reads (faithful_topEnv options held) [] s)
  obtain ⟨t, ht, hf⟩ := (hasFor_of_cutRest (faithful_topEnv options _) hddl hc).of_suffix hrest
  rw [hfor t ht] at hf
  cases hf

/-! ## A probe -/

/-- A table with a schema, which no name of a common table hides. -/
def probeTable : List Token := [.word (ascii "a"), .sym '.', .word (ascii "b")]

/-- A parenthesis that closes nothing, and a table. -/
def probe : List Token := .sym ')' :: .word (ascii "FROM") :: probeTable

theorem tokens_probe : (ascii ") FROM a.b").tokens = probe := by decide +kernel

/-- The probe is a list of one qualified table. No name that is bound hides it. -/
theorem tableList_probe (env : Env (List Token)) (bound : List String) :
    tableList env bound probeTable =
      (.ofReference ⟨some ((Token.word (ascii "a")).name env.lower),
        (Token.word (ascii "b")).name env.lower⟩, []) := by
  have hname : qualifiedName? probeTable = some (⟨some (.word (ascii "a")), .word (ascii "b")⟩, []) :=
    Grammar.qualifiedName?_tableName
      (.qualified ⟨.word (ascii "a"), by decide⟩ ⟨.word (ascii "b"), by decide⟩) Grammar.starts_nil
  have hopen : acceptSym? '(' probeTable = none := rfl
  have hdual : acceptKeyword? (· == .DUAL) probeTable = none := by decide
  rw [tableList_eq, tableItem?, hopen]
  simp only
  rw [hdual, tableName?, hname]
  -- The table stands at the end, and so do its partitions, alias and hints.
  have hrest : skipIndexHints (skipAlias (skipPartition ([] : List Token))) = [] :=
    skipIndexHints_nil
  simp only [Option.map_some]
  rw [hrest, nextTable?_nil]
  rfl

/-- Wherever the probe is read, its table is found. -/
theorem body_probe (env : Env (List Token)) (bound : List String) :
    (body env true bound probe).references =
      [⟨some ((Token.word (ascii "a")).name env.lower), (Token.word (ascii "b")).name env.lower⟩] := by
  have hfrom : (Token.word (ascii "FROM")).keyword? = some .FROM := by decide
  have hlist : startsList env (.word (ascii "FROM")) probeTable = true := by
    rw [startsList, Token.isKeyword_of_keyword? hfrom]
    rfl
  have hclose : clause env bound (.sym ')') (.word (ascii "FROM") :: probeTable) =
      (∅, .word (ascii "FROM") :: probeTable) := rfl
  rw [probe, body_top (by decide), hclose]
  simp only
  rw [body_top (by decide), clause_of_startsList hlist, tableList_probe, body_end]
  rfl

/-! ## Whole texts -/

variable {text : Bytes}

/-- What stands behind a `;` on a new line comes as tokens of its own. -/
theorem tokens_semicolon (hc : text.closes = true) (more : Bytes) :
    (text ++ ascii "\n;" ++ more).tokens = followed text.tokens more.tokens := by
  have hline : text ++ ascii "\n;" ++ more = onNewLine text (';'.toUInt8 :: more) :=
    List.append_assoc _ _ _
  rw [hline, tokens_append_of_closes hc, tokens_punct rfl (by decide) rfl (by decide)]
  rfl

/-- A statement that breaks off nowhere is the same behind a `;` on a line of its own, whatever comes then. -/
theorem parse_semicolon_of_not_cut (hc : text.closes = true) (hp : Closed text.tokens)
    (hcut : ¬ CutStatement options .unknown text.tokens) (more : Bytes) :
    parse options (text ++ ascii "\n;" ++ more) = parse options text := by
  rw [parse, parse, Summary.read, Summary.read, extract_tokens, tokens_semicolon hc,
    extract_followed hp hcut, ← extract_tokens]

/-- The type of a statement that is read on its own is that of its opening. -/
theorem type_parse (options : Options) (text : Bytes) :
    (parse options text).type = (opening (topEnv options .unknown) [] text.tokens).type := by
  show (extract options .unknown text).1 = _
  rw [extract_tokens, extract_eq]
  rfl

/-- A `;` ends every query and every change of rows in which no `FOR` occurs. -/
theorem parse_semicolon (hc : text.closes = true) (hp : Closed text.tokens)
    (hddl : (parse options text).type.isDdl = false)
    (hfor : ∀ t ∈ text.tokens, t.isKeyword (· == .FOR) = false) (more : Bytes) :
    parse options (text ++ ascii "\n;" ++ more) = parse options text := by
  rw [type_parse] at hddl
  exact parse_semicolon_of_not_cut hc hp (not_cutStatement hddl hfor) more

/-- A statement that breaks off takes the tables of the next one, if that one is the probe. -/
theorem parse_probe_of_cut (hc : text.closes = true) (hp : Closed text.tokens)
    (hcut : CutStatement options .unknown text.tokens) :
    parse options (text ++ ascii "\n;" ++ ascii ") FROM a.b") ≠ parse options text := by
  intro hsame
  obtain ⟨type, bound, hextract⟩ := extract_cut hp hcut (probe.drop 1)
  have hprobe : probe = .sym ')' :: probe.drop 1 := rfl
  -- Only the references differ: the type is that of the first statement.
  have hrefs : [] ++ (extract options .unknown (text ++ ascii "\n;" ++ ascii ") FROM a.b")).2 =
      [] ++ (extract options .unknown text).2 := congrArg Summary.references hsame
  rw [extract_tokens, tokens_semicolon hc, tokens_probe, extract_tokens _ _ text, hprobe, hextract,
    ← hprobe, body_probe, List.nil_append, List.nil_append, List.append_right_eq_self] at hrefs
  cases hrefs

/-- **A `;` ends a statement unless the statement breaks off.** Where every quoted text, every comment and
    every parenthesis is closed, nothing behind a `;` on a new line counts, except exactly if the
    statement breaks off in front of a token that is taken unseen. -/
theorem parse_semicolon_iff (hc : text.closes = true) (hp : Closed text.tokens)
    (options : Options) :
    (∀ more : Bytes, parse options (text ++ ascii "\n;" ++ more) = parse options text) ↔
      ¬ CutStatement options .unknown text.tokens := by
  constructor
  · intro hall hcut
    exact parse_probe_of_cut hc hp hcut (hall _)
  · intro hcut more
    exact parse_semicolon_of_not_cut hc hp hcut more

/-- The search for the table of `DROP INDEX i` takes the `;` behind it. -/
theorem parse_semicolon_dropIndex :
    let text := ascii "DROP INDEX i"
    text.closes = true ∧ Closed text.tokens ∧
      ¬ ∀ more : Bytes, parse {} (text ++ ascii "\n;" ++ more) = parse {} text := by
  intro text
  have hc : text.closes = true := by decide +kernel
  have hp : Closed text.tokens := by decide +kernel
  have htype : (opening (topEnv {} .unknown) [] text.tokens).type = .drop := by decide +kernel
  have hobject : ddlObject false (opening (topEnv {} .unknown) [] text.tokens).rest =
      (.attached, [.word (ascii "i")]) := by decide +kernel
  have hname : attachedRest [.word (ascii "i")] = [] := by decide +kernel
  have hcut : CutStatement {} .unknown text.tokens := by
    rw [CutStatement, htype]
    refine Or.inl (Or.inr ⟨_, hobject, ?_⟩)
    rw [hname]
    intro t ht
    cases ht
  exact ⟨hc, hp, fun hall => (parse_semicolon_iff hc hp {}).mp hall hcut⟩

end SqlTables
