import SqlTables.Proofs.Grammar.Balance
import SqlTables.Proofs.Token.Suffix

/-!
# `SqlTables.Proofs.Grammar.Leaves` — reading the leaves of a tree

A name, an alias, an index hint or a separator in front of other tokens is read, and those are left. What
follows starts with a token at which the reader stops.

## Contents
- **`Starts`**: what comes next.
- **`EndsItem`** and **`LacksAlias`**: where an item of a list ends, and where its alias is missing.
- One lemma for each reader, either behind its leaf (`…_names`, `…_alias`, …) or where it stops
  (`…_stop`).
-/

namespace SqlTables.Grammar

open TokenSource

/-! ## What comes next -/

/-- If anything comes next, it is of this kind. -/
def Starts (P : Token → Prop) (s : List Token) : Prop := ∀ t ∈ s.head?, P t

variable {P Q : Token → Prop} {p q : Keyword → Bool} {t : Token} {a s z : List Token}

theorem starts_nil : Starts P [] := by
  rintro t ⟨⟩

theorem starts_cons (h : P t) : Starts P (t :: s) := by
  rintro _ ⟨⟩
  exact h

theorem starts_imp (hPQ : ∀ t, P t → Q t) (h : Starts P s) : Starts Q s :=
  fun t ht => hPQ t (h t ht)

/-- Where the front may be empty, what follows it has to be of this kind as well. -/
theorem starts_append (ha : Starts P a) (hz : Starts P z) : Starts P (a ++ z) := by
  cases a with
  | nil => exact hz
  | cons t a => exact starts_cons (ha t rfl)

theorem accept?_stop {p : Token → Bool} (h : Starts (fun t => p t = false) z) :
    accept? p z = none := by
  cases z with
  | nil => rfl
  | cons t z =>
      show (if p t = true then some z else none) = none
      rw [h t rfl, if_neg Bool.false_ne_true]

theorem acceptSym?_stop {c : Char} (h : Starts (· ≠ .sym c) z) : acceptSym? c z = none :=
  accept?_stop (starts_imp (fun _ ht => beq_eq_false_iff_ne.mpr ht) h)

/-! ## Keywords -/

/-- A property of all keywords is checked on their list. -/
theorem forall_keyword {P : Keyword → Prop} (h : ∀ k ∈ Keyword.all, P k) (k : Keyword) : P k :=
  h k (Keyword.mem_all k)

/-- A keyword of one set is one of any larger set. -/
theorem isKeyword_imp (hpq : ∀ k, p k = true → q k = true) (h : t.isKeyword p = true) :
    t.isKeyword q = true := by
  obtain ⟨k, hk, hp⟩ := (Option.any_eq_true _ _).mp h
  exact (Option.any_eq_true _ _).mpr ⟨k, hk, hpq k hp⟩

/-- A keyword of one set is none of a disjoint set. -/
theorem isKeyword_disjoint (hpq : ∀ k, p k = true → q k = false) (h : t.isKeyword p = true) :
    t.isKeyword q = false := by
  obtain ⟨k, hk, hp⟩ := (Option.any_eq_true _ _).mp h
  rw [Token.isKeyword_of_keyword? hk, hpq k hp]

theorem keyword?_of_isKeyword {k : Keyword} (h : t.isKeyword (· == k) = true) :
    t.keyword? = some k := by
  obtain ⟨k', hk, hp⟩ := (Option.any_eq_true _ _).mp h
  rw [hk, beq_iff_eq.mp hp]

/-- The word that spells a keyword is that keyword. -/
theorem isKeyword_name (k : Keyword) : (Token.word (ascii k.name)).isKeyword (· == k) = true := by
  have hk : (Token.word (ascii k.name)).keyword? = some k := k.ofWord?_name
  rw [Token.isKeyword_of_keyword? hk, beq_self_eq_true]

theorem isKeyword_join : (Token.word (ascii "JOIN")).isKeyword Keyword.isJoin = true := by decide

/-! ## Words from a list -/

variable {names others : List String}

/-- A token is one of these names only as a word, whatever the case of its letters. -/
theorem word_of_isWordOf (h : t.isWordOf names = true) :
    ∃ n ∈ names, ∃ text, t = .word text ∧ (ascii n).map upper = text.map upper := by
  cases t with
  | word text =>
      obtain ⟨n, hn, hsame⟩ := List.any_eq_true.mp h
      exact ⟨n, hn, text, rfl, sameWord_iff.mp hsame⟩
  | quoted q content => cases h
  | punct b => cases h

theorem isIdentifier_of_isWordOf (h : t.isWordOf names = true) : t.isIdentifier = true := by
  obtain ⟨_, _, text, rfl, _⟩ := word_of_isWordOf h
  rfl

/-- A word from a list without keywords is none. -/
theorem keyword?_of_isWordOf (hnames : ∀ n ∈ names, Keyword.ofWord? (ascii n) = none)
    (h : t.isWordOf names = true) : t.keyword? = none := by
  obtain ⟨n, hn, text, rfl, hsame⟩ := word_of_isWordOf h
  exact (Keyword.ofWord?_congr hsame).symm.trans (hnames n hn)

/-- A word from one list is in no disjoint list, whatever the case of its letters. -/
theorem isWordOf_disjoint (hdisjoint : ∀ n ∈ names, oneOf others (ascii n) = false)
    (h : t.isWordOf names = true) : t.isWordOf others = false := by
  obtain ⟨n, hn, text, rfl, hsame⟩ := word_of_isWordOf h
  rw [← hdisjoint n hn]
  simp only [Token.isWordOf, oneOf, Bytes.sameWord, hsame]

/-! ## Passing keywords -/

theorem acceptKeyword?_stop (h : Starts (fun t => t.isKeyword p = false) z) :
    acceptKeyword? p z = none := accept?_stop h

/-- Keywords of the set are passed, however many there are. -/
theorem skipKeywords_words (ws : List (KeywordToken p)) (z : List Token) :
    skipKeywords p (words ws ++ z) = skipKeywords p z := by
  induction ws with
  | nil => rfl
  | cons w ws ih =>
      have haccept : accept? (·.isKeyword p) (w.1 :: (words ws ++ z)) = some (words ws ++ z) :=
        accept?_cons w.2 _
      show skipKeywords p (w.1 :: (words ws ++ z)) = _
      rw [skipKeywords, skipWhile_eq, haccept]
      exact ih

theorem skipKeywords_stop (h : Starts (fun t => t.isKeyword p = false) z) :
    skipKeywords p z = z := by
  rw [skipKeywords, skipWhile_eq, accept?_stop h]

/-! ## Where an item of a list ends -/

/-- Words at which a list of tables ends. -/
def endsTables : Keyword → Bool
  | .ON | .USING | .WHERE | .UNION | .SET => true
  | _ => false

/-- Words that may follow an item of a list. -/
def endsItem (k : Keyword) : Bool := endsTables k || k.isJoinModifier || k.isJoin

/-- A comma or a word at which an item of a list ends. -/
def EndsItem (t : Token) : Prop := t = .sym ',' ∨ t.isKeyword endsItem = true

/-- A comma or a word at which the alias of an item is missing. -/
def LacksAlias (t : Token) : Prop :=
  t = .sym ',' ∨ t.isKeyword (fun k => !(k == .AS || k == .PARTITION)) = true

/-- Where an item ends, it has no further alias. -/
theorem lacksAlias_of_endsItem (h : EndsItem t) : LacksAlias t := by
  rcases h with rfl | h
  · exact Or.inl rfl
  · exact Or.inr (isKeyword_imp (forall_keyword (by decide)) h)

theorem isKeyword_comma (p : Keyword → Bool) : (Token.sym ',').isKeyword p = false := rfl

/-- Where an alias is missing, no symbol but a comma comes next. -/
theorem ne_sym_of_lacksAlias {c : Char} (hc : Token.sym ',' ≠ .sym c) (h : LacksAlias t) :
    t ≠ .sym c := by
  rcases h with rfl | h
  · exact hc
  · exact ne_sym_of_isKeyword h c

/-- The token at which an item ends is no keyword that goes on with the item. -/
theorem isKeyword_of_endsItem (hp : ∀ k, endsItem k = true → p k = false) (h : EndsItem t) :
    t.isKeyword p = false := by
  rcases h with rfl | h
  · exact isKeyword_comma p
  · exact isKeyword_disjoint hp h

/-- Nothing is passed where the alias is missing. -/
theorem skipAlias_stop (h : Starts LacksAlias z) : skipAlias z = z := by
  cases z with
  | nil => rfl
  | cons t z =>
      rcases h t rfl with rfl | h
      · rfl
      · obtain ⟨k, hk, hp⟩ := (Option.any_eq_true _ _).mp h
        have hne : k ≠ .AS := by
          rintro rfl
          cases hp
        exact skipAlias_keyword hk hne z

/-- No hint starts where an item ends. -/
theorem skipIndexHints_stop (h : Starts EndsItem z) : skipIndexHints z = z := by
  have haction : acceptKeyword? (fun k => k == .USE || k == .FORCE || k == .IGNORE) z = none :=
    acceptKeyword?_stop (starts_imp (fun _ => isKeyword_of_endsItem (forall_keyword (by decide))) h)
  rw [skipIndexHints_eq, indexHint?, haction]
  rfl

theorem skipSpan_stop (h : Starts (· ≠ .sym '(') z) : skipSpan z = z := by
  rw [skipSpan, acceptSym?_stop h]

/-- A span of balanced tokens is passed up to its own parenthesis. -/
theorem skipSpan_enclose (ha : Balanced a) (z : List Token) : skipSpan (enclose a ++ z) = z := by
  rw [enclose_append]
  exact congrArg Prod.snd (closeSpan_balanced ha z)

theorem skipPartition_stop (h : Starts (fun t => t.isKeyword (· == .PARTITION) = false) z) :
    skipPartition z = z := by
  rw [skipPartition, acceptKeyword?_stop h]

/-- The partitions behind the name of a table are passed together with their parentheses. -/
theorem skipPartition_partition (partition : Option (KeywordToken (· == .PARTITION) × Names))
    (h : Starts (fun t => t.isKeyword (· == .PARTITION) = false) z) :
    skipPartition (partitionTokens partition ++ z) = z := by
  cases partition with
  | none => exact skipPartition_stop h
  | some part =>
      obtain ⟨word, names⟩ := part
      show skipPartition (word.1 :: (enclose names.tokens ++ z)) = z
      rw [skipPartition, acceptKeyword?_cons word.2]
      exact skipSpan_enclose (balanced_names names) z

/-! ## Aliases and hints -/

/-- An alias is passed, with `AS` or without it. -/
theorem skipAlias_alias (label : Alias) (z : List Token) : skipAlias (label.tokens ++ z) = z := by
  cases label with
  | plain name =>
      show skipAlias (name.1 :: z) = z
      rw [skipAlias_plain name.2.2, if_pos name.2.1]
  | behindAs as name =>
      show skipAlias (as.1 :: name.1 :: z) = z
      rw [skipAlias_as (keyword?_of_isKeyword as.2), skip, accept?_cons name.2]
      rfl

/-- An alias is passed where there is one, and nothing where it is missing. -/
theorem skipAlias_label (label : Option Alias) (h : Starts LacksAlias z) :
    skipAlias (label.elim [] Alias.tokens ++ z) = z := by
  cases label with
  | none => exact skipAlias_stop h
  | some label => exact skipAlias_alias label z

theorem advance_cons (t : Token) (z : List Token) : advance (t :: z) = z := rfl

/-- What an index hint is for is passed up to the names of the indexes. -/
theorem skipHintPurpose_purpose (purpose : Option Purpose)
    (h : Starts (fun t => t.isKeyword (· == .FOR) = false) z) :
    skipHintPurpose (purpose.elim [] Purpose.tokens ++ z) = z := by
  cases purpose with
  | none =>
      show skipHintPurpose z = z
      rw [skipHintPurpose, acceptKeyword?_stop h]
  | some purpose =>
      cases purpose with
      | join for_ word =>
          -- Behind `FOR` a `JOIN` stands alone, and `ORDER` and `GROUP` have one more word.
          have hword : Starts (fun t => t.isKeyword (fun k => k == .ORDER || k == .GROUP) = false)
              (word.1 :: z) := starts_cons (isKeyword_disjoint (forall_keyword (by decide)) word.2)
          show skipHintPurpose (for_.1 :: word.1 :: z) = z
          rw [skipHintPurpose, acceptKeyword?_cons for_.2]
          simp only
          rw [acceptKeyword?_stop hword]
          exact advance_cons word.1 z
      | sorting for_ word by_ =>
          show skipHintPurpose (for_.1 :: word.1 :: by_.1 :: z) = z
          rw [skipHintPurpose, acceptKeyword?_cons for_.2]
          simp only
          rw [acceptKeyword?_cons word.2]
          exact advance_cons by_.1 z

/-- One index hint is read from its first word to its last parenthesis. -/
theorem indexHint?_hint (hint : Hint) (z : List Token) :
    indexHint? (hint.tokens ++ z) = some z := by
  obtain ⟨action, index, purpose, names⟩ := hint
  have hassoc : Hint.tokens ⟨action, index, purpose, names⟩ ++ z =
      action.1 :: index.1 :: (purpose.elim [] Purpose.tokens ++ (enclose names.tokens ++ z)) := by
    simp only [Hint.tokens, List.cons_append, List.append_assoc]
  have hopen : Starts (fun t => t.isKeyword (· == .FOR) = false) (enclose names.tokens ++ z) :=
    starts_cons rfl
  rw [hassoc, indexHint?, acceptKeyword?_cons action.2]
  simp only [Option.bind_eq_bind, Option.bind_some]
  rw [acceptKeyword?_cons index.2, Option.bind_some, skipHintPurpose_purpose purpose hopen,
    skipSpan_enclose (balanced_names names)]

/-- All index hints of an item are passed, and the loop stops where the item ends. -/
theorem skipIndexHints_hints (hints : List Hint) (h : Starts EndsItem z) :
    skipIndexHints (hints.flatMap Hint.tokens ++ z) = z := by
  induction hints with
  | nil => exact skipIndexHints_stop h
  | cons hint hints ih =>
      rw [List.flatMap_cons, List.append_assoc, skipIndexHints_eq, indexHint?_hint]
      exact ih

/-! ## Names -/

theorem dottedPart?_stop (h : Starts (· ≠ .sym '.') z) : dottedPart? z = none := by
  rw [dottedPart?, acceptSym?_stop h]
  rfl

theorem furtherParts_stop (name : QualifiedName) (h : Starts (· ≠ .sym '.') z) :
    furtherParts name z = (name, z) := by
  rw [furtherParts_eq, dottedPart?_stop h]

/-- The tokens of a name as they are read. -/
def TableName.qualified? : TableName → QualifiedName
  | .plain table => ⟨none, table.1⟩
  | .qualified schema table => ⟨some schema.1, table.1⟩

/-- The name of a table is read as it is written, with its schema or without. -/
theorem qualifiedName?_tableName (name : TableName) (h : Starts (· ≠ .sym '.') z) :
    qualifiedName? (name.tokens ++ z) = some (name.qualified?, z) := by
  cases name with
  | plain table =>
      show (if startsName table.1 then some (furtherParts ⟨none, table.1⟩ z) else none) = _
      rw [if_pos table.2.1, furtherParts_stop _ h]
      rfl
  | qualified schema table =>
      have hpart : dottedPart? (.sym '.' :: table.1 :: z) = some (table.1, z) := by
        show (if table.1.isIdentifier then some (table.1, z) else none) = _
        rw [if_pos table.2]
      show (if startsName schema.1 then
        some (furtherParts ⟨none, schema.1⟩ (.sym '.' :: table.1 :: z)) else none) = _
      rw [if_pos schema.2.1, furtherParts_eq, hpart]
      simp only
      rw [furtherParts_stop _ h]
      rfl

/-! ## Separators -/

/-- The words of a join lead to the next item of a list. -/
theorem nextTable?_join (join : Join) (z : List Token) : nextTable? (join.tokens ++ z) = some z := by
  obtain ⟨modifiers, join⟩ := join
  have hassoc : Join.tokens ⟨modifiers, join⟩ ++ z = words modifiers ++ join.1 :: z :=
    List.append_assoc _ _ _
  -- Neither a modifier nor `JOIN` is a comma, so the first of the two readers gives way.
  have hcomma : Starts (· ≠ .sym ',') (words modifiers ++ join.1 :: z) := by
    refine starts_append ?_ (starts_cons (ne_sym_of_isKeyword join.2 ','))
    cases modifiers with
    | nil => exact starts_nil
    | cons modifier _ => exact starts_cons (ne_sym_of_isKeyword modifier.2 ',')
  have hstop : Starts (fun t => t.isKeyword Keyword.isJoinModifier = false) (join.1 :: z) :=
    starts_cons (isKeyword_disjoint (forall_keyword (by decide)) join.2)
  rw [hassoc, nextTable?, acceptSym?_stop hcomma, skipKeywords_words, skipKeywords_stop hstop]
  exact accept?_cons join.2 z

/-- Behind a comma or a join the next item is read. -/
theorem nextTable?_separator (separator : Separator) (z : List Token) :
    nextTable? (separator.tokens ++ z) = some z := by
  cases separator with
  | comma => rfl
  | join join => exact nextTable?_join join z

/-- At a word that ends the list there is no next item. -/
theorem nextTable?_stop (h : Starts (fun t => t.isKeyword endsTables = true) z) :
    nextTable? z = none := by
  have hcomma : Starts (· ≠ .sym ',') z := starts_imp (fun _ ht => ne_sym_of_isKeyword ht ',') h
  have hmodifier : Starts (fun t => t.isKeyword Keyword.isJoinModifier = false) z :=
    starts_imp (fun _ => isKeyword_disjoint (forall_keyword (by decide))) h
  have hjoin : Starts (fun t => t.isKeyword Keyword.isJoin = false) z :=
    starts_imp (fun _ => isKeyword_disjoint (forall_keyword (by decide))) h
  rw [nextTable?, acceptSym?_stop hcomma, skipKeywords_stop hmodifier]
  exact accept?_stop hjoin

end SqlTables.Grammar
