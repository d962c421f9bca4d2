import SqlTables.Proofs.Grammar.Modification
import SqlTables.Proofs.Selection

/-!
# `SqlTables.Proofs.Modification` — no table of a change is missed

A statement that changes data names its tables where its command says, and the rest of it is read like that
of any other statement: the lists behind `FROM`, `JOIN` and, in a `DELETE`, `USING`, and what parentheses
hold in any clause. Reading the tokens of a tree finds exactly the tables of the tree, in the order of
the text.

## Contents
- **`parse_command`**: a statement behind the word of its command.
- **Words of changes**: `body_usingTables`, `body_duplicates`.
- **`afterOpening_update`**, **`afterOpening_delete`**, **`afterOpening_deleteUsing`**,
  **`afterOpening_insert`**: one lemma a command.
- **`parse_modification`**: whole statements.
-/

namespace SqlTables

open TokenSource Grammar

variable {env : Env (List Token)} {isTop : Bool} {t : Token} {z : List Token}

/-! ## Commands -/

/-- A statement is read behind the word of its command, where no name is bound. -/
theorem parse_command {text : Bytes} {k : Keyword} {type : StatementType} {options : Options}
    {references : List TableReference} (ht : text.tokens = t :: z) (hk : t.keyword? = some k)
    (htype : k.statementType? = some type)
    (hz : afterOpening (.outer options type) true [] type z = .ofReferences references) :
    parse options text = { type := type, references := references } := by
  have hwith : k ≠ .WITH := by
    rintro rfl
    cases htype
  have hopening : ∀ env : Env (List Token), opening env [] (t :: z) = ⟨∅, type, z⟩ := by
    intro env
    rw [opening_keyword env [] hk hwith, htype]
    rfl
  rw [parse_eq_tokens, ht, command, hopening, statement]
  simp only [hopening]
  show Summary.mk type (∅ ++ afterOpening (.outer options type) true [] type z).references = _
  rw [hz]
  rfl

/-! ## Words of changes -/

/-- In a `DELETE` a `USING` in front of no parenthesis starts a list. -/
theorem body_usingTables (henv : env.usingTables = true) (w : KeywordToken (· == .USING))
    (hz : Starts (· ≠ .sym '(') z) : body env isTop [] (w.1 :: z) = listed env isTop z := by
  have hopen : (acceptSym? '(' z).isNone = true := by
    rw [acceptSym?_stop hz]
    rfl
  have hclause : clause env [] w.1 z = tableList env [] z := by
    unfold clause
    rw [if_neg (ne_sym_of_isKeyword w.2 '('), keyword?_of_isKeyword w.2, henv, hopen]
    rfl
  rw [body_cons env isTop (ne_sym_of_isKeyword w.2 ';'), hclause]
  rfl

/-- `DUPLICATE` is a word like any other. -/
theorem isInert_duplicate (word : { t : Token // t.isWordOf ["DUPLICATE"] = true }) :
    isInert false word.1 = true :=
  isInert_of_isIdentifier (isIdentifier_of_isWordOf word.2) (keyword?_of_isWordOf (by decide) word.2)
    false

variable {usingTables : Bool} {lower : Bool} {depth : Nat}

/-- What follows `ON DUPLICATE KEY UPDATE` is read like any other part of the body. -/
theorem body_duplicates (duplicates : Duplicates) (hd : duplicates.parts.nesting ≤ depth) :
    body (Env.nested lower false depth) isTop [] duplicates.tokens =
      .ofReferences (duplicates.tables lower) := by
  have hparts : body (Env.nested lower false depth) isTop [] duplicates.parts.tokens =
      .ofReferences (duplicates.parts.tables lower) :=
    body_of_append (body_parts lower (Or.inl rfl) duplicates.parts hd isTop [])
  rw [Duplicates.tokens, body_word (forall_keyword (by decide)),
    body_inert (usingTables_nested _ _ _) (isInert_duplicate duplicates.duplicate),
    body_word (forall_keyword (by decide)), body_word (forall_keyword (by decide)), hparts]
  rfl

/-- The tables of the source of an `INSERT` are those of its words or of its query. -/
theorem body_source (source : Source) (hd : source.nesting ≤ depth)
    (hz : Starts (fun t => t.isKeyword endsTables = true) z) :
    body (Env.nested lower false depth) isTop [] (source.tokens ++ z) =
      .ofReferences (source.tables lower) ++ body (Env.nested lower false depth) isTop [] z := by
  cases source with
  | clause word parts =>
      show body _ isTop [] (word.1 :: (parts.tokens ++ z)) = _
      rw [body_word (forall_keyword (by decide))]
      exact body_parts lower (Or.inl rfl) parts hd isTop z
  | query q => exact body_query_append lower q hd isTop hz

/-! ## One command after another -/

theorem body_filtered (filter : Filter usingTables) (hd : filter.nesting ≤ depth) :
    body (Env.nested lower usingTables depth) isTop [] filter.tokens =
      .ofReferences (filter.tables lower) := by
  apply body_of_append
  exact body_filter lower filter hd isTop []

/-- A list of tables and a `WHERE` at the end of a statement. -/
theorem listed_filtered (tables : Tables usingTables) (filter : Filter usingTables)
    (hd : max tables.nesting filter.nesting ≤ depth) :
    listed (Env.nested lower usingTables depth) isTop (tables.tokens ++ filter.tokens) =
      .ofReferences (tables.tables lower ++ filter.tables lower) := by
  obtain ⟨htables, hfilter⟩ := Nat.max_le.mp hd
  have hend : Starts (fun t => t.isKeyword endsTables = true) filter.tokens := by
    rw [← List.append_nil filter.tokens]
    exact endsTables_filter filter starts_nil
  rw [listed_tables lower tables htables isTop hend, body_filtered filter hfilter]
  rfl

/-- An `UPDATE` has the tables of its list, of what it sets and of its condition, in this order. -/
theorem afterOpening_update (modifiers : List (KeywordToken Keyword.isUpdateModifier))
    (tables : Tables false)
    (unmodified : Starts (fun t => t.isKeyword Keyword.isUpdateModifier = false) tables.tokens)
    (set : KeywordToken (· == .SET)) (parts : Parts false .clause) (filter : Filter false)
    (hd : max tables.nesting (max parts.nesting filter.nesting) ≤ depth) :
    afterOpening (Env.nested lower false depth) isTop [] .update
        (words modifiers ++ (tables.tokens ++ set.1 :: (parts.tokens ++ filter.tokens))) =
      .ofReferences (tables.tables lower ++ (parts.tables lower ++ filter.tables lower)) := by
  obtain ⟨htables, hrest⟩ := Nat.max_le.mp hd
  obtain ⟨hparts, hfilter⟩ := Nat.max_le.mp hrest
  -- `SET` ends the list, and it is no modifier in front of it.
  have hend : Starts (fun t => t.isKeyword endsTables = true)
      (set.1 :: (parts.tokens ++ filter.tokens)) :=
    starts_cons (isKeyword_imp (forall_keyword (by decide)) set.2)
  have hstop : Starts (fun t => t.isKeyword Keyword.isUpdateModifier = false)
      (tables.tokens ++ set.1 :: (parts.tokens ++ filter.tokens)) :=
    starts_append unmodified (starts_cons (isKeyword_disjoint (forall_keyword (by decide)) set.2))
  show listed _ isTop (skipKeywords Keyword.isUpdateModifier (words modifiers ++ _)) = _
  rw [skipKeywords_words, skipKeywords_stop hstop, listed_tables lower tables htables isTop hend,
    body_word (forall_keyword (by decide)), body_parts lower (Or.inl rfl) parts hparts,
    body_filtered filter hfilter]
  rfl

/-- A `DELETE` has no target of its own: all of it is read as a body. -/
theorem afterOpening_eq_body_delete (s : List Token) :
    afterOpening env isTop [] .delete s = body env isTop [] s := Findings.empty_append _

/-- The names between `DELETE` and `FROM` are passed, and the list behind `FROM` has all the tables. -/
theorem afterOpening_delete (names : List { t : Token // isInert true t = true })
    (from_ : KeywordToken (· == .FROM)) (tables : Tables true) (filter : Filter true)
    (hd : max tables.nesting filter.nesting ≤ depth) :
    afterOpening (Env.nested lower true depth) isTop [] .delete
        (names.map Subtype.val ++ from_.1 :: (tables.tokens ++ filter.tokens)) =
      .ofReferences (tables.tables lower ++ filter.tables lower) := by
  have hnames : ∀ t ∈ names.map Subtype.val, isInert true t = true := by
    intro t ht
    obtain ⟨name, -, rfl⟩ := List.mem_map.mp ht
    exact name.2
  rw [afterOpening_eq_body_delete, body_inerts (usingTables_nested _ _ _) hnames,
    body_tables (forall_keyword (by decide)), listed_filtered tables filter hd]

/-- In a `DELETE FROM … USING …` both lists have tables, and a table that stands in both is found twice. -/
theorem afterOpening_deleteUsing (from_ : KeywordToken (· == .FROM)) (names : Tables true)
    (using_ : KeywordToken (· == .USING)) (tables : Tables true)
    (unopened : Starts (· ≠ .sym '(') tables.tokens) (filter : Filter true)
    (hd : max names.nesting (max tables.nesting filter.nesting) ≤ depth) :
    afterOpening (Env.nested lower true depth) isTop [] .delete
        (from_.1 :: (names.tokens ++ using_.1 :: (tables.tokens ++ filter.tokens))) =
      .ofReferences (names.tables lower ++ (tables.tables lower ++ filter.tables lower)) := by
  obtain ⟨hnames, htables⟩ := Nat.max_le.mp hd
  have hend : Starts (fun t => t.isKeyword endsTables = true)
      (using_.1 :: (tables.tokens ++ filter.tokens)) :=
    starts_cons (isKeyword_imp (forall_keyword (by decide)) using_.2)
  -- No parenthesis comes next, so this `USING` starts a list and names no columns.
  have hopen : Starts (· ≠ .sym '(') (tables.tokens ++ filter.tokens) := by
    refine starts_append unopened ?_
    cases filter with
    | none => exact starts_nil
    | parts where_ parts => exact starts_cons (ne_sym_of_isKeyword where_.2 '(')
  rw [afterOpening_eq_body_delete, body_tables (forall_keyword (by decide)),
    listed_tables lower names hnames isTop hend, body_usingTables (usingTables_nested _ _ _) using_ hopen,
    listed_filtered tables filter htables]
  rfl

/-- The name of the table behind `INSERT`, where no word in front of it is left to be passed. -/
theorem tableName_tableName (name : TableName) (hz : Starts (· ≠ .sym '.') z) :
    tableName env [] (name.tokens ++ z) = (.ofReferences [name.reference env.lower], z) := by
  rw [tableName, tableName?_tableName name hz]
  rfl

/-- The list of columns of an `INSERT` has no table in it. -/
theorem body_insertColumns (columns : Option Names) (z : List Token) :
    body (Env.nested lower usingTables depth) isTop []
        (columns.elim [] (fun names => enclose names.tokens) ++ z) =
      body (Env.nested lower usingTables depth) isTop [] z := by
  cases columns with
  | none => rfl
  | some names => exact body_names lower usingTables depth isTop [] names z

/-- The source of an `INSERT` starts with a keyword, at which the name of the table ends. -/
theorem source_starts (source : Source) :
    ∃ (p : Keyword → Bool) (word : KeywordToken p) (rest : List Token), source.tokens = word.1 :: rest := by
  cases source with
  | clause word parts => exact ⟨_, word, parts.tokens, rfl⟩
  | query q =>
      obtain ⟨word, rest, hq⟩ := query_starts q
      exact ⟨_, word, rest, hq⟩

/-- An `INSERT` or `REPLACE` has the table behind its modifiers, then the tables of its source and those
    behind `ON DUPLICATE KEY UPDATE`. -/
theorem afterOpening_insert {type : StatementType} (htype : type = .insert ∨ type = .replace)
    (modifiers : List (KeywordToken Keyword.isInsertModifier)) (table : TableName)
    (unmodified : Starts (fun t => t.isKeyword Keyword.isInsertModifier = false) table.tokens)
    (columns : Option Names) (source : Source) (duplicates : Option Duplicates)
    (hd : max source.nesting (duplicates.elim 0 fun duplicates => duplicates.parts.nesting) ≤ depth) :
    afterOpening (Env.nested lower false depth) isTop [] type
        (words modifiers ++ (table.tokens ++
          (columns.elim [] (fun names => enclose names.tokens) ++
            (source.tokens ++ duplicates.elim [] Duplicates.tokens)))) =
      .ofReferences (table.reference lower ::
        (source.tables lower ++ duplicates.elim [] (Duplicates.tables lower))) := by
  obtain ⟨hsource, hduplicates⟩ := Nat.max_le.mp hd
  have hend : Starts (fun t => t.isKeyword endsTables = true)
      (duplicates.elim [] Duplicates.tokens) := by
    cases duplicates with
    | none => exact starts_nil
    | some duplicates => exact starts_cons (isKeyword_imp (forall_keyword (by decide)) duplicates.on.2)
  have hbody : body (Env.nested lower false depth) isTop []
      (source.tokens ++ duplicates.elim [] Duplicates.tokens) =
        .ofReferences (source.tables lower ++ duplicates.elim [] (Duplicates.tables lower)) := by
    rw [body_source source hsource hend]
    cases duplicates with
    | none => exact congrArg (_ ++ ·) (body_nil _ isTop [])
    | some duplicates => exact congrArg (_ ++ ·) (body_duplicates duplicates hduplicates)
  -- The name has no further part, whether its columns or its source come next.
  have hdot : Starts (· ≠ .sym '.') (columns.elim [] (fun names => enclose names.tokens) ++
      (source.tokens ++ duplicates.elim [] Duplicates.tokens)) := by
    refine starts_append ?_ ?_
    · cases columns with
      | none => exact starts_nil
      | some names => exact starts_cons (by decide)
    · obtain ⟨p, word, rest, hsource⟩ := source_starts source
      rw [hsource]
      exact starts_cons (ne_sym_of_isKeyword word.2 '.')
  have hstop : ∀ z, Starts (fun t => t.isKeyword Keyword.isInsertModifier = false)
      (table.tokens ++ z) := by
    intro z
    cases table with
    | plain name => exact starts_cons (unmodified _ rfl)
    | qualified schema name => exact starts_cons (unmodified _ rfl)
  have htargets : ∀ s : List Token, targets (Env.nested lower false depth) [] type s =
      tableName (Env.nested lower false depth) [] (skipKeywords Keyword.isInsertModifier s) := by
    intro s
    rcases htype with rfl | rfl
    · rfl
    · rfl
  rw [afterOpening, htargets, skipKeywords_words, skipKeywords_stop (hstop _),
    tableName_tableName table hdot, lower_nested]
  show Findings.ofReferences _ ++ body _ isTop [] _ = _
  rw [body_insertColumns, hbody]
  rfl

/-! ## Whole statements -/

/-- **No table of a change is missed.** A text whose tokens are those of a statement that changes data,
    nested no deeper than the limit, has exactly the tables of the statement, in the order of the
    text. -/
theorem parse_modification {text : Bytes} {m : Modification} {options : Options}
    (ht : text.tokens = m.tokens) (hd : m.nesting ≤ options.maxDepth) :
    parse options text = { type := m.type, references := m.tables options.lowerCaseNames } := by
  cases m with
  | update command modifiers tables unmodified set parts filter =>
      exact parse_command ht (keyword?_of_isKeyword command.2) rfl
        (afterOpening_update modifiers tables unmodified set parts filter hd)
  | delete command names from_ tables filter =>
      exact parse_command ht (keyword?_of_isKeyword command.2) rfl
        (afterOpening_delete names from_ tables filter hd)
  | deleteUsing command from_ names using_ tables unopened filter =>
      exact parse_command ht (keyword?_of_isKeyword command.2) rfl
        (afterOpening_deleteUsing from_ names using_ tables unopened filter hd)
  | insert isReplace command modifiers table unmodified columns source duplicates =>
      cases isReplace with
      | true =>
          exact parse_command ht (keyword?_of_isKeyword command.2) rfl
            (afterOpening_insert (Or.inr rfl) modifiers table unmodified columns source duplicates hd)
      | false =>
          exact parse_command ht (keyword?_of_isKeyword command.2) rfl
            (afterOpening_insert (Or.inl rfl) modifiers table unmodified columns source duplicates hd)

/-- A `DELETE` with `USING` in both of its meanings and a query in its condition. -/
def joinedDeletion : Modification :=
  let word (text : String) : Token := .word (ascii text)
  let name (text : String) : Token := .quoted .backtick (ascii text)
  let item (text : String) : Item true := .table (.plain ⟨name text, rfl, rfl⟩) none none []
  let inner : Query true := .select (.mk ⟨word "SELECT", isKeyword_name .SELECT⟩ [] (.token ⟨name "y", rfl⟩ .nil)
    ⟨word "FROM", isKeyword_name .FROM⟩ (.last (.table (.qualified ⟨name "db", rfl, rfl⟩ ⟨word "c", rfl⟩) none none []))
    .none)
  .deleteUsing ⟨word "DELETE", by decide⟩ ⟨word "FROM", isKeyword_name .FROM⟩ (.last (item "a"))
    ⟨word "USING", by decide⟩
    (.next (item "a") (.join ⟨[], ⟨word "JOIN", isKeyword_join⟩⟩)
      (.lastIf (item "b") (.columns ⟨word "USING", by decide⟩ ⟨⟨name "id", rfl, rfl⟩, []⟩)))
    (starts_cons (by decide))
    (.parts ⟨word "WHERE", by decide⟩ (.token ⟨name "a", rfl⟩ (.token ⟨.sym '.', by decide⟩
      (.token ⟨name "x", rfl⟩ (.token ⟨word "IN", by decide⟩ (.query inner .nil))))))

/-- The first `USING` starts a list, and the second one names a column. -/
theorem parse_modification_joined :
    let text := ascii
      "DELETE FROM `a` USING `a` JOIN `b` USING (`id`) WHERE `a`.`x` IN (SELECT `y` FROM `db`.c)"
    text.tokens = joinedDeletion.tokens ∧ joinedDeletion.nesting ≤ 1 ∧
      parse { maxDepth := 1 } text =
        { type := .delete
          references := [⟨none, "a"⟩, ⟨none, "a"⟩, ⟨none, "b"⟩, ⟨some "db", "c"⟩] } := by
  intro text
  have ht : text.tokens = joinedDeletion.tokens := by decide +kernel
  have hd : joinedDeletion.nesting ≤ 1 := by decide
  have hparse := @parse_modification text joinedDeletion { maxDepth := 1 } ht hd
  refine ⟨ht, hd, hparse.trans ?_⟩
  decide +kernel

end SqlTables
