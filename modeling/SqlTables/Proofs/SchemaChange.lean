import SqlTables.Proofs.Grammar.SchemaChange
import SqlTables.Proofs.Modification
import SqlTables.Proofs.StatementEnd.Cut

/-!
# `SqlTables.Proofs.SchemaChange` — the tables of a schema change

Any number of fillers and options may stand in front of what a schema change is about. They are passed
one by one, each of them together with its value, so that neither a word among them is taken for the
object nor the object for one of them. A `DROP` then has all the tables that it lists, any other command the
first one, and an index or trigger the table behind its `ON`.

## Contents
- **Options**: `skipHosts_hosts`, `skipOptionValue_value`.
- **`ddlObject_front`**: what stands in front of an object.
- **`ddlTargets_named`**, **`ddlTargets_attached`**: the objects.
- **`parse_schemaChange`**: whole statements.
-/

namespace SqlTables

open TokenSource Grammar

variable {env : Env (List Token)} {isTop : Bool} {t : Token} {z : List Token}

/-! ## Options -/

/-- All hosts are passed, and the loop stops where no sign for one comes next. -/
theorem skipHosts_hosts (hosts : List Token) (hz : Starts (· ≠ .sym '@') z) :
    skipHosts (hosts.flatMap (fun host => [.sym '@', host]) ++ z) = z := by
  induction hosts with
  | nil =>
      show skipHosts z = z
      rw [skipHosts_eq, acceptSym?_stop hz]
  | cons host hosts ih =>
      rw [List.flatMap_cons, List.append_assoc, skipHosts_eq]
      exact ih

/-- The value of an option is passed in front of a word or name. -/
theorem skipOptionValue_value (value : Option OptionValue)
    (hz : Starts (·.isIdentifier = true) z) :
    skipOptionValue (value.elim [] OptionValue.tokens ++ z) = z := by
  have hstop : ∀ c : Char, Starts (· ≠ .sym c) z :=
    fun c => starts_imp (fun _ ht => ne_sym_of_isIdentifier ht c) hz
  cases value with
  | none =>
      show skipOptionValue z = z
      rw [skipOptionValue, acceptSym?_stop (hstop '=')]
  | some v =>
      obtain ⟨value, hosts, arguments⟩ := v
      -- With arguments in parentheses or without: the hosts end in front of them.
      have htail : ∀ tail : List Token, Starts (· ≠ .sym '@') tail → skipSpan tail = z →
          skipOptionValue
            (.sym '=' :: value :: (hosts.flatMap (fun host => [.sym '@', host]) ++ tail)) = z := by
        intro tail hat hspan
        show skipSpan (skipHosts (hosts.flatMap (fun host => [.sym '@', host]) ++ tail)) = z
        rw [skipHosts_hosts hosts hat, hspan]
      have hassoc : OptionValue.tokens ⟨value, hosts, arguments⟩ ++ z =
          .sym '=' :: value :: (hosts.flatMap (fun host => [.sym '@', host]) ++
            (arguments.elim [] (fun ts => enclose ts.1) ++ z)) := by
        simp only [OptionValue.tokens, List.cons_append, List.append_assoc]
      show skipOptionValue (OptionValue.tokens ⟨value, hosts, arguments⟩ ++ z) = z
      rw [hassoc]
      cases arguments with
      | none => exact htail z (hstop '@') (skipSpan_stop (hstop '('))
      | some ts => exact htail (enclose ts.1 ++ z) (starts_cons (by decide)) (skipSpan_enclose ts.2 z)

/-! ## What stands in front of an object -/

/-- Fillers and options start with a word, and so does what follows them. -/
theorem starts_front {kindKnown : Bool} (front : Front kindKnown)
    (hz : Starts (·.isIdentifier = true) z) :
    Starts (·.isIdentifier = true) (front.tokens ++ z) := by
  cases front with
  | nil => exact hz
  | filler word rest => exact starts_cons (isIdentifier_of_isKeyword word.2)
  | option word value rest => exact starts_cons (isIdentifier_of_isWordOf word.2)

/-- Fillers and options are passed. What follows is read in one of the two states in which it may be
    read. -/
theorem ddlObject_front {kindKnown : Bool} (front : Front kindKnown)
    {x : DdlObject × List Token} (hstart : Starts (·.isIdentifier = true) z)
    (hz : ∀ known, ddlObject known z = x) : ddlObject kindKnown (front.tokens ++ z) = x := by
  induction front with
  | nil => exact hz _
  | @filler kindKnown word rest ih =>
      obtain ⟨k, hk, hfiller⟩ := (Option.any_eq_true _ _).mp word.2
      show ddlObject kindKnown (word.1 :: (rest.tokens ++ z)) = x
      rw [ddlObject_filler hk hfiller, Bool.or_assoc,
        ← Token.isKeyword_of_keyword? hk fun k => k == .TABLE || k == .VIEW]
      exact ih
  | option word value rest ih =>
      have hk : word.1.keyword? = none := keyword?_of_isWordOf (by decide) word.2
      have hother : word.1.isWordOf otherObjects = false := isWordOf_disjoint (by decide) word.2
      show ddlObject false (word.1 :: (value.elim [] OptionValue.tokens ++ rest.tokens ++ z)) = x
      rw [ddlObject_option hk hother word.2, List.append_assoc,
        skipOptionValue_value value (starts_front rest hstart)]
      exact ih

/-- `INDEX` or `TRIGGER` is an object of a table that stands behind `ON`. -/
theorem ddlObject_attached (known : Bool) (kind : KeywordToken Keyword.isAttachedObject)
    (z : List Token) : ddlObject known (kind.1 :: z) = (.attached, z) := by
  obtain ⟨k, hk, hattached⟩ := (Option.any_eq_true _ _).mp kind.2
  have hfiller : k.isDdlFiller = false :=
    forall_keyword (P := fun k => k.isAttachedObject = true → k.isDdlFiller = false) (by decide) k
      hattached
  rw [ddlObject_eq, next?_cons]
  simp only [hk, hfiller, hattached, if_true, Bool.false_eq_true, if_false]

/-! ## Names of objects -/

/-- A name is none of the words that stand in front of objects. -/
theorem isObjectWord_eq_false : isObjectWord t = false ↔
    t.keyword? = none ∧ t.isWordOf otherObjects = false ∧ t.isWordOf ddlOptions = false := by
  simp [isObjectWord, and_assoc]

/-- A token that can be nothing but a name ends the search for the object. -/
theorem ddlObject_stop (known : Bool) (h : isObjectWord t = false) (z : List Token) :
    ddlObject known (t :: z) = (.table, t :: z) := by
  obtain ⟨hk, hother, hoption⟩ := isObjectWord_eq_false.mp h
  rw [ddlObject_eq, next?_cons]
  cases known <;> simp only [hk, hother, hoption, if_true, Bool.false_eq_true, if_false]

/-- The name of an object starts with a token that can be nothing but a name. -/
theorem objectName_starts (name : ObjectName) :
    ∃ t rest, name.tokens = t :: rest ∧ t.isIdentifier = true ∧ isObjectWord t = false := by
  obtain ⟨name, hname⟩ := name
  cases name with
  | plain table =>
      exact ⟨table.1, [], rfl, isIdentifier_of_startsName table.2.1, hname _ List.mem_cons_self⟩
  | qualified schema table =>
      exact ⟨schema.1, [.sym '.', table.1], rfl, isIdentifier_of_startsName schema.2.1,
        hname _ List.mem_cons_self⟩

theorem starts_objectName (name : ObjectName) :
    Starts (·.isIdentifier = true) (name.tokens ++ z) := by
  obtain ⟨t, rest, htokens, ht, _⟩ := objectName_starts name
  rw [htokens]
  exact starts_cons ht

/-- The name of an object starts with no filler. -/
theorem starts_unfilled (name : ObjectName) :
    Starts (fun t => t.isKeyword Keyword.isDdlFiller = false) (name.tokens ++ z) := by
  obtain ⟨t, rest, htokens, _, ht⟩ := objectName_starts name
  rw [htokens]
  refine starts_cons ?_
  rw [Token.isKeyword, (isObjectWord_eq_false.mp ht).1]
  rfl

theorem ddlObject_objectName (known : Bool) (name : ObjectName) (z : List Token) :
    ddlObject known (name.tokens ++ z) = (.table, name.tokens ++ z) := by
  obtain ⟨t, rest, htokens, _, ht⟩ := objectName_starts name
  rw [htokens]
  exact ddlObject_stop known ht _

theorem tableName_objectName (name : ObjectName) (hz : Starts (· ≠ .sym '.') z) :
    tableName env [] (name.tokens ++ z) = (.ofReferences [name.reference env.lower], z) :=
  tableName_tableName name.1 hz

/-- Names that are left behind start nothing. -/
theorem isInert_objectName (name : ObjectName) (usingTables : Bool) :
    ∀ t ∈ name.tokens, isInert usingTables t = true := by
  intro t ht
  obtain ⟨hk, _⟩ := isObjectWord_eq_false.mp (name.2 t ht)
  obtain ⟨name, hname⟩ := name
  have hidentifier : t = .sym '.' ∨ t.isIdentifier = true := by
    cases name with
    | plain table =>
        obtain rfl := List.mem_singleton.mp ht
        exact Or.inr (isIdentifier_of_startsName table.2.1)
    | qualified schema table =>
        have hmem : t ∈ [schema.1, .sym '.', table.1] := ht
        simp only [List.mem_cons, List.not_mem_nil, or_false] at hmem
        rcases hmem with rfl | rfl | rfl
        · exact Or.inr (isIdentifier_of_startsName schema.2.1)
        · exact Or.inl rfl
        · exact Or.inr table.2
  rcases hidentifier with rfl | hi
  · cases usingTables <;> rfl
  · exact isInert_of_isIdentifier hi hk usingTables

/-- What is left of a list of names adds nothing to the body. -/
theorem isInert_listTokens (names : List ObjectName) (usingTables : Bool) :
    ∀ t ∈ listTokens names, isInert usingTables t = true := by
  intro t ht
  obtain ⟨name, _, hmem⟩ := List.mem_flatMap.mp ht
  rcases List.mem_cons.mp hmem with rfl | hname
  · cases usingTables <;> rfl
  · exact isInert_objectName name usingTables t hname

theorem starts_listTokens (names : List ObjectName) : Starts (· ≠ .sym '.') (listTokens names) := by
  cases names with
  | nil => exact starts_nil
  | cons name names => exact starts_cons (by decide)

/-! ## The objects of a change -/

/-- A list of names is read to its end. -/
theorem tableNames_names (first : ObjectName) (others : List ObjectName) :
    tableNames env [] (first.tokens ++ listTokens others) =
      (.ofReferences ((first :: others).map (ObjectName.reference env.lower)), []) := by
  induction others generalizing first with
  | nil =>
      have hfirst : tableName? env [] (first.tokens ++ listTokens []) =
          some (.ofReferences [first.reference env.lower], []) :=
        tableName?_tableName first.1 (starts_listTokens [])
      rw [tableNames_eq, hfirst]
      rfl
  | cons other others ih =>
      have hfirst : tableName? env [] (first.tokens ++ listTokens (other :: others)) =
          some (.ofReferences [first.reference env.lower], listTokens (other :: others)) :=
        tableName?_tableName first.1 (starts_listTokens (other :: others))
      -- The list goes on at its comma.
      have hcomma : acceptSym? ',' (listTokens (other :: others)) =
          some (other.tokens ++ listTokens others) := rfl
      rw [tableNames_eq, hfirst]
      simp only
      rw [hcomma]
      simp only
      rw [ih]
      rfl

/-- Whatever stands between an index or trigger and its `ON` is passed. -/
theorem tableAfterOn_between {between : List Token}
    (h : ∀ t ∈ between, t ≠ .sym ';' ∧ t.isKeyword (· == .ON) = false)
    (on : KeywordToken (· == .ON)) (z : List Token) :
    tableAfterOn env [] (between ++ on.1 :: z) = tableName env [] z := by
  induction between with
  | nil =>
      rw [List.nil_append, tableAfterOn_eq, next?_cons]
      simp only
      rw [if_neg (ne_sym_of_isKeyword on.2 ';'), if_pos on.2]
  | cons t between ih =>
      obtain ⟨⟨hsemi, hon⟩, hbetween⟩ := List.forall_mem_cons.mp h
      rw [List.cons_append, tableAfterOn_eq, next?_cons]
      simp only
      rw [if_neg hsemi, hon, if_neg Bool.false_ne_true]
      exact ih hbetween

/-- A `DROP` has all of its names as tables, and any other schema change only the first one. -/
theorem ddlTargets_named {type : StatementType} (front : Front (type == .truncate))
    (first : ObjectName) (others : List ObjectName) :
    ddlTargets env [] type (front.tokens ++ (Target.named first others).tokens) =
      if type = .drop then
        (.ofReferences ((first :: others).map (ObjectName.reference env.lower)), [])
      else (.ofReferences [first.reference env.lower], listTokens others) := by
  have hobject : ddlObject (type == .truncate)
      (front.tokens ++ (first.tokens ++ listTokens others)) =
        (.table, first.tokens ++ listTokens others) :=
    ddlObject_front front (starts_objectName first) fun known => ddlObject_objectName known first _
  rw [ddlTargets, Target.tokens, hobject]
  simp only [beq_iff_eq]
  rw [tableNames_names, tableName_objectName first (starts_listTokens others)]

/-- An index or trigger has the table behind `ON`, however many tokens stand in front of that word. -/
theorem ddlTargets_attached {type : StatementType} (front : Front (type == .truncate))
    (kind : KeywordToken Keyword.isAttachedObject)
    (fillers : List (KeywordToken Keyword.isDdlFiller)) (name : ObjectName) {between : List Token}
    (passed : ∀ t ∈ between, t ≠ .sym ';' ∧ t.isKeyword (· == .ON) = false)
    (undotted : Starts (· ≠ .sym '.') between) (on : KeywordToken (· == .ON)) (table : ObjectName) :
    ddlTargets env [] type
        (front.tokens ++ (Target.attached kind fillers name between passed undotted on table).tokens) =
      (.ofReferences [table.reference env.lower], []) := by
  have hobject : ddlObject (type == .truncate)
      (front.tokens ++ kind.1 ::
        (words fillers ++ (name.tokens ++ (between ++ on.1 :: table.tokens)))) =
        (.attached, words fillers ++ (name.tokens ++ (between ++ on.1 :: table.tokens))) :=
    ddlObject_front front (starts_cons (isIdentifier_of_isKeyword kind.2))
      fun known => ddlObject_attached known kind _
  have hdot : Starts (· ≠ .sym '.') (between ++ on.1 :: table.tokens) :=
    starts_append undotted (starts_cons (ne_sym_of_isKeyword on.2 '.'))
  -- The name of the index or trigger is passed, and what follows it up to `ON` as well.
  have hname : skipName (name.tokens ++ (between ++ on.1 :: table.tokens)) =
      between ++ on.1 :: table.tokens := by
    rw [skipName, ObjectName.tokens, qualifiedName?_tableName name.1 hdot]
  have htable : tableName env [] table.tokens = (.ofReferences [table.reference env.lower], []) := by
    rw [← List.append_nil table.tokens]
    exact tableName_objectName table starts_nil
  rw [ddlTargets, Target.tokens, hobject]
  simp only
  rw [skipKeywords_words, skipKeywords_stop (starts_unfilled name), hname,
    tableAfterOn_between passed on, htable]

/-! ## Whole statements -/

theorem targets_of_isDdl (env : Env (List Token)) {type : StatementType} (h : type.isDdl = true)
    (s : List Token) : targets env [] type s = ddlTargets env [] type s := by
  cases type with
  | alter | drop | create | truncate => rfl
  | select | insert | update | delete | replace | unknown => cases h

/-- What is left behind the tables of a command adds none if it starts nothing. -/
theorem afterOpening_of_targets {type : StatementType} {references : List TableReference}
    {s rest : List Token} (henv : env.usingTables = false)
    (h : targets env [] type s = (.ofReferences references, rest))
    (hrest : ∀ t ∈ rest, isInert false t = true) :
    afterOpening env isTop [] type s = .ofReferences references := by
  rw [afterOpening, h]
  show Findings.ofReferences references ++ body env isTop [] rest = _
  rw [← List.append_nil rest, body_inerts henv hrest, body_nil, Findings.append_empty]

/-- A schema change has exactly its tables, and what is left of its tokens adds none. -/
theorem afterOpening_schemaChange (isTop : Bool) (change : SchemaChange) (henv : env.usingTables = false) :
    afterOpening env isTop [] change.type (change.front.tokens ++ change.target.tokens) =
      .ofReferences (change.tables env.lower) := by
  obtain ⟨type, isDdl, command, front, target⟩ := change
  cases target with
  | named first others =>
      have htargets := (targets_of_isDdl env isDdl _).trans
        (ddlTargets_named front first others)
      simp only [SchemaChange.tables]
      by_cases htype : type = .drop
      · rw [if_pos htype] at htargets ⊢
        exact afterOpening_of_targets henv htargets (List.forall_mem_nil _)
      · rw [if_neg htype] at htargets ⊢
        exact afterOpening_of_targets henv htargets (isInert_listTokens others false)
  | attached kind fillers name between passed undotted on table =>
      have htargets := (targets_of_isDdl env isDdl _).trans
        (ddlTargets_attached front kind fillers name passed undotted on table)
      exact afterOpening_of_targets henv htargets (List.forall_mem_nil _)

/-- **The tables of a schema change.** A text whose tokens are those of a schema change has its type and
    exactly its tables, whatever fillers and options stand in front of them. -/
theorem parse_schemaChange {text : Bytes} {change : SchemaChange} {options : Options}
    (ht : text.tokens = change.tokens) :
    parse options text =
      { type := change.type, references := change.tables options.lowerCaseNames } := by
  obtain ⟨k, hk, htype⟩ := (Option.any_eq_true _ _).mp change.command.2
  have henv : (Env.outer options change.type : Env (List Token)).usingTables = false := by
    rw [Env.outer, usingTables_nested, beq_eq_false_iff_ne]
    intro hdelete
    have hddl := change.isDdl
    rw [hdelete] at hddl
    cases hddl
  have hafter := afterOpening_schemaChange true change henv
  rw [lower_outer] at hafter
  exact parse_command ht hk (beq_iff_eq.mp htype) hafter

/-- A change whose options have values that are fillers or options elsewhere. -/
def createdView : SchemaChange :=
  let word (text : String) : Token := .word (ascii text)
  let user : OptionValue := ⟨.quoted .single (ascii "app"), [.quoted .single (ascii "%"), word "TABLE"],
    some ⟨[word "x", .sym '-', word "y"], balanced_of_closers? (by decide)⟩⟩
  { type := .create
    isDdl := rfl
    command := ⟨word "CREATE", by decide⟩
    front := .filler ⟨word "OR", by decide⟩ (.filler ⟨word "REPLACE", by decide⟩
      (.option ⟨word "ALGORITHM", by decide⟩ (some ⟨word "VIEW", [], none⟩)
        (.option ⟨word "DEFINER", by decide⟩ (some user)
          (.option ⟨word "SQL", by decide⟩ none (.option ⟨word "INVOKER", by decide⟩ none
            (.filler ⟨word "VIEW", by decide⟩ .nil))))))
    target := .named (.quoted (some (ascii "db")) (ascii "v")) [.quoted none (ascii "w")] }

/-- A trigger is dropped from a table that follows after other words. -/
def droppedTrigger : SchemaChange :=
  let word (text : String) : Token := .word (ascii text)
  { type := .drop
    isDdl := rfl
    command := ⟨word "DROP", by decide⟩
    front := .option ⟨word "DEFINER", by decide⟩ (some ⟨word "SQL", [], none⟩) .nil
    target := .attached ⟨word "TRIGGER", by decide⟩
      [⟨word "IF", by decide⟩, ⟨word "EXISTS", by decide⟩] (.quoted none (ascii "i"))
      [.sym '(', word "FROM", .quoted .backtick (ascii "u")] (by decide) (starts_cons (by decide))
      ⟨word "ON", isKeyword_name .ON⟩ (.quoted (some (ascii "db")) (ascii "t")) }

/-- The list behind `VIEW` counts up to its first name, and no word in front of it is taken for its kind. -/
theorem parse_schemaChange_view :
    let view := ascii
      "CREATE OR REPLACE ALGORITHM = VIEW DEFINER = 'app'@'%'@TABLE (x-y) SQL INVOKER VIEW `db`.`v`, `w`"
    let trigger := ascii "DROP DEFINER = SQL TRIGGER IF EXISTS `i` (FROM `u` ON `db`.`t`"
    view.tokens = createdView.tokens ∧ trigger.tokens = droppedTrigger.tokens ∧
      parse {} view = { type := .create, references := [⟨some "db", "v"⟩] } ∧
      parse {} trigger = { type := .drop, references := [⟨some "db", "t"⟩] } := by
  intro view trigger
  have hview : view.tokens = createdView.tokens := by decide +kernel
  have htrigger : trigger.tokens = droppedTrigger.tokens := by decide +kernel
  refine ⟨hview, htrigger, ?_, ?_⟩
  · exact (@parse_schemaChange view createdView {} hview).trans (by decide +kernel)
  · exact (@parse_schemaChange trigger droppedTrigger {} htrigger).trans (by decide +kernel)

end SqlTables
