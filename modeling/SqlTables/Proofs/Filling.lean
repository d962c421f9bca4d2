import SqlTables.Proofs.Selection
import SqlTables.Proofs.Token.Written

/-!
# `SqlTables.Proofs.Filling` — commands that take their rows from a query

`INSERT INTO`, `REPLACE INTO`, `CREATE TABLE` and `CREATE VIEW` name a table, behind which a query says what
it holds. The table comes first, and the query is read as the rest of the statement.

## Contents
- **`Filling`** with its words, its type and **`Filling.text`**, the command as it is written.
- **`targets_filling`**: the table that the command names.
- **`parse_filling`**: the summary of a command and what stands behind it.
-/

namespace SqlTables

open TokenSource Grammar

/-! ## Commands as they are written -/

/-- A command that names a table and is followed by a query. -/
inductive Filling where
  | insertInto
  | replaceInto
  | createTable
  | createTableAs
  | createViewAs
  | createOrReplaceViewAs
  deriving DecidableEq

namespace Filling

/-- The word that the command starts with. -/
def command : Filling → String
  | insertInto => "INSERT"
  | replaceInto => "REPLACE"
  | createTable | createTableAs | createViewAs | createOrReplaceViewAs => "CREATE"

/-- The words between that and the table. -/
def fillers : Filling → List String
  | insertInto | replaceInto => ["INTO"]
  | createTable | createTableAs => ["TABLE"]
  | createViewAs => ["VIEW"]
  | createOrReplaceViewAs => ["OR", "REPLACE", "VIEW"]

/-- The words between the table and the query. -/
def link : Filling → List String
  | insertInto | replaceInto | createTable => []
  | createTableAs | createViewAs | createOrReplaceViewAs => ["AS"]

/-- The type of the command. -/
def type : Filling → StatementType
  | insertInto => .insert
  | replaceInto => .replace
  | createTable | createTableAs | createViewAs | createOrReplaceViewAs => .create

/-- The command, a table in grave accents and a query, with blanks between them. -/
def text (f : Filling) (table query : Bytes) : Bytes :=
  spaced (f.command :: f.fillers)
    (Quote.backtick.write table ++ ' '.toUInt8 :: spaced f.link query)

end Filling

/-- The tokens of words. -/
def wordTokens (words : List String) : List Token := words.map fun word => .word (ascii word)

/-- The tokens of a command, with the tokens `z` of a query behind it. -/
def Filling.tokens (f : Filling) (content : Bytes) (z : List Token) : List Token :=
  .word (ascii f.command) :: (wordTokens f.fillers ++
    .quoted .backtick content :: (wordTokens f.link ++ z))

/-- All parts of a filling are words. -/
theorem isWord_filling (f : Filling) :
    (∀ word ∈ f.command :: f.fillers, isWord word = true) ∧ ∀ word ∈ f.link, isWord word = true := by
  cases f <;> decide

/-- The tokens of a filled text are those of its words, the name in quotes, and those of the query. -/
theorem tokens_filling (f : Filling) (table query : Bytes) :
    (f.text table query).tokens = f.tokens (Quote.backtick.encode table) query.tokens := by
  have hblank : (' '.toUInt8 :: spaced f.link query).head? ≠ some Quote.backtick.byte := by
    rw [List.head?_cons]
    decide
  rw [Filling.text, tokens_spaced (isWord_filling f).1,
    tokens_write (Quote.writes_backtick table) hblank, tokens_separator (by decide),
    tokens_spaced (isWord_filling f).2]
  rfl

/-! ## The table of the command -/

variable {content : Bytes} {z : List Token}

/-- A name in grave accents that no dot follows. -/
theorem tableName_backtick (env : Env (List Token)) (content : Bytes) (hz : Starts (· ≠ .sym '.') z) :
    tableName env [] (.quoted .backtick content :: z) =
      (.ofReference ⟨none, (Token.quoted .backtick content).name env.lower⟩, z) := by
  have hname : qualifiedName? (.quoted .backtick content :: z) =
      some (⟨none, .quoted .backtick content⟩, z) := by
    show some (furtherParts ⟨none, .quoted .backtick content⟩ z) = _
    rw [furtherParts_stop _ hz]
  rw [tableName, tableName?, hname]
  rfl

/-- `INTO` is passed in front of the table. -/
theorem skipKeywords_into (content : Bytes) (rest : List Token) :
    skipKeywords Keyword.isInsertModifier (wordTokens ["INTO"] ++ .quoted .backtick content :: rest) =
      .quoted .backtick content :: rest := by
  have hword : (Token.word (ascii "INTO")).isKeyword Keyword.isInsertModifier = true := by decide
  have hstop : Starts (fun t => t.isKeyword Keyword.isInsertModifier = false)
      (Token.quoted .backtick content :: rest) := starts_cons rfl
  exact (skipKeywords_words [⟨_, hword⟩] _).trans (skipKeywords_stop hstop)

/-- Behind `TABLE` or `VIEW` comes the table. -/
theorem ddlObject_fillers {f : Filling} (hf : f.type = .create) (content : Bytes)
    (rest : List Token) :
    ddlObject false (wordTokens f.fillers ++ .quoted .backtick content :: rest) =
      (.table, .quoted .backtick content :: rest) := by
  have hknown : ddlObject true (.quoted .backtick content :: rest) =
      (.table, .quoted .backtick content :: rest) := by
    rw [ddlObject_eq, next?_cons]
    rfl
  have hview : ∀ rest : List Token, ddlObject false (.word (ascii "VIEW") :: rest) = ddlObject true rest :=
    ddlObject_filler (k := .VIEW) (by decide) rfl false
  cases f with
  | insertInto | replaceInto => cases hf
  | createTable | createTableAs =>
      exact (ddlObject_filler (k := .TABLE) (by decide) rfl false _).trans hknown
  | createViewAs => exact (hview _).trans hknown
  | createOrReplaceViewAs =>
      have hor : ∀ rest : List Token, ddlObject false (.word (ascii "OR") :: rest) = ddlObject false rest :=
        ddlObject_filler (k := .OR) (by decide) rfl false
      have hreplace : ∀ rest : List Token, ddlObject false (.word (ascii "REPLACE") :: rest) =
          ddlObject false rest := ddlObject_filler (k := .REPLACE) (by decide) rfl false
      exact (hor _).trans ((hreplace _).trans ((hview _).trans hknown))

/-- The name of the target has no further part. -/
theorem starts_link (f : Filling) (hz : Starts (· ≠ .sym '.') z) :
    Starts (· ≠ .sym '.') (wordTokens f.link ++ z) := by
  refine starts_append ?_ hz
  cases f with
  | insertInto | replaceInto | createTable => exact starts_nil
  | createTableAs | createViewAs | createOrReplaceViewAs => exact starts_cons (by decide)

/-- The words in front of the table are passed, and the table is read. -/
theorem targets_filling (env : Env (List Token)) (f : Filling) (hz : Starts (· ≠ .sym '.') z) :
    targets env [] f.type
        (wordTokens f.fillers ++ .quoted .backtick content :: (wordTokens f.link ++ z)) =
      (.ofReference ⟨none, (Token.quoted .backtick content).name env.lower⟩,
        wordTokens f.link ++ z) := by
  have htable := tableName_backtick env content (starts_link f hz)
  have hcreate : f.type = .create → ddlTargets env [] .create
      (wordTokens f.fillers ++ .quoted .backtick content :: (wordTokens f.link ++ z)) =
        tableName env [] (.quoted .backtick content :: (wordTokens f.link ++ z)) := by
    intro hf
    have hobject : ddlObject (StatementType.create == .truncate) _ = _ :=
      ddlObject_fillers hf content (wordTokens f.link ++ z)
    rw [ddlTargets, hobject]
    rfl
  cases f with
  | insertInto | replaceInto =>
      exact (congrArg (tableName env []) (skipKeywords_into content _)).trans htable
  | createTable | createTableAs | createViewAs | createOrReplaceViewAs =>
      exact (hcreate rfl).trans htable

/-! ## The command as a whole -/

/-- The word between the table and the query, if there is one, contributes nothing. -/
theorem body_link (env : Env (List Token)) (f : Filling) (z : List Token) :
    body env true [] (wordTokens f.link ++ z) = body env true [] z := by
  have has : (Token.word (ascii "AS")).isKeyword (· == .AS) = true := by decide
  cases f with
  | insertInto | replaceInto | createTable => rfl
  | createTableAs | createViewAs | createOrReplaceViewAs =>
      exact body_word (forall_keyword (by decide)) ⟨_, has⟩ z

/-- The opening of a filled text is the word of its command. -/
theorem opening_filling (env : Env (List Token)) (f : Filling) (content : Bytes) (z : List Token) :
    opening env [] (f.tokens content z) =
      ⟨∅, f.type, wordTokens f.fillers ++ .quoted .backtick content :: (wordTokens f.link ++ z)⟩ := by
  have hword : ∃ k, (Token.word (ascii f.command)).keyword? = some k ∧ k ≠ .WITH ∧
      k.statementType? = some f.type := by
    cases f with
    | insertInto => exact ⟨.INSERT, by decide⟩
    | replaceInto => exact ⟨.REPLACE, by decide⟩
    | createTable | createTableAs | createViewAs | createOrReplaceViewAs =>
        exact ⟨.CREATE, by decide⟩
  obtain ⟨k, hk, hw, htype⟩ := hword
  rw [Filling.tokens, opening_keyword env [] hk hw, htype]
  rfl

/-- A filled text has its target and the tables of what follows it, read as the body of a statement. -/
theorem statement_filling (options : Options) (f : Filling) (content : Bytes)
    (hz : Starts (· ≠ .sym '.') z) :
    statement options .unknown [] (f.tokens content z) =
      .ofReference ⟨none, (Token.quoted .backtick content).name options.lowerCaseNames⟩ ++
        body (.outer options .select) true [] z := by
  have henv : (Env.outer options (StatementType.unknown.orElse f.type) : Env (List Token)) =
      .outer options .select := by
    cases f <;> rfl
  unfold statement
  simp only
  rw [opening_filling]
  simp only
  rw [henv, Findings.bound_empty, List.append_nil, Findings.empty_append, afterOpening,
    targets_filling _ f hz, lower_outer]
  simp only
  rw [show [] ++ (Findings.ofReference _).bound = [] from rfl, body_link]

/-- What stands behind the table is read as the rest of a statement. -/
theorem parse_filling (options : Options) (f : Filling) (table : Bytes) {query : Bytes}
    (hz : Starts (· ≠ .sym '.') query.tokens) :
    parse options (f.text table query) =
      { type := f.type
        references := ⟨none, recordedName options.lowerCaseNames table⟩ ::
          (body (.outer options .select) true [] query.tokens).references } := by
  rw [parse_eq_tokens, tokens_filling, command, opening_filling, statement_filling options f _ hz,
    name_encode]
  rfl

end SqlTables
