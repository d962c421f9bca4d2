import SqlTables.Proofs.Grammar
import SqlTables.Proofs.Token.Tracks

/-!
# `SqlTables.Proofs.Grammar.Balance` — the parentheses of a tree are balanced

The span behind a parenthesis in front of a tree is the tree itself.

## Contents
- **`Balanced`** and its closure properties.
- One lemma `balanced_…` for each leaf and each tree.
- **`closeSpan_enclose`**: the span of a tree in parentheses.
-/

namespace SqlTables.Grammar

/-- Tokens that open and close no parenthesis of others. -/
def Balanced (ts : List Token) : Prop :=
  ∀ depth z, closeSpan depth (ts ++ z) = (closeSpan depth z).map (ts ++ ·) id

variable {a b : List Token} {t : Token} {p : Keyword → Bool}

theorem balanced_nil : Balanced [] := fun _ _ => rfl

/-- The span of a parenthesis runs through both parts one after the other. -/
theorem balanced_append (ha : Balanced a) (hb : Balanced b) : Balanced (a ++ b) := by
  intro depth z
  have happend : (a ++ b ++ ·) = (a ++ ·) ∘ (b ++ ·) := funext fun z => List.append_assoc a b z
  rw [List.append_assoc, ha, hb, Prod.map_map, happend]
  rfl

/-- A token that is no parenthesis in front of balanced tokens. -/
theorem balanced_plain (ho : t ≠ .sym '(') (hc : t ≠ .sym ')') (hb : Balanced b) :
    Balanced (t :: b) := by
  intro depth z
  rw [List.cons_append, closeSpan_other ho hc, hb, Prod.map_map]
  rfl

/-- Parentheses around balanced tokens: the level goes up at the first one and comes back at the last. -/
theorem balanced_enclose (hb : Balanced b) : Balanced (enclose b) := by
  intro depth z
  have hinner : closeSpan (depth + 1) (b ++ .sym ')' :: z) =
      (closeSpan depth z).map (b ++ .sym ')' :: ·) id := by
    rw [hb, closeSpan_close, Prod.map_map]
    rfl
  have happend : (enclose b ++ ·) = (.sym '(' :: ·) ∘ (b ++ .sym ')' :: ·) :=
    funext (enclose_append b)
  rw [enclose_append, closeSpan_open, hinner, Prod.map_map, happend]
  rfl

/-- The span of balanced tokens in parentheses, and what follows it. -/
theorem closeSpan_balanced (ha : Balanced a) (z : List Token) :
    closeSpan 0 (a ++ .sym ')' :: z) = (a, z) := by
  rw [ha, closeSpan_end]
  exact congrArg (·, z) (List.append_nil a)

/-! ## Leaves -/

theorem ne_sym_of_isIdentifier (h : t.isIdentifier = true) (c : Char) : t ≠ .sym c := by
  rintro rfl
  cases h

/-- A keyword is an identifier: only a word can be one. -/
theorem isIdentifier_of_isKeyword (h : t.isKeyword p = true) : t.isIdentifier = true := by
  obtain ⟨k, hk, _⟩ := (Option.any_eq_true _ _).mp h
  exact Token.isIdentifier_of_keyword? hk

theorem ne_sym_of_isKeyword (h : t.isKeyword p = true) (c : Char) : t ≠ .sym c :=
  ne_sym_of_isIdentifier (isIdentifier_of_isKeyword h) c

theorem ne_sym_of_isAlias (h : isAlias t = true) (c : Char) : t ≠ .sym c := by
  rintro rfl
  cases h

theorem isIdentifier_of_startsName (h : startsName t = true) : t.isIdentifier = true :=
  (Bool.and_eq_true _ _ ▸ h).1

theorem balanced_identifier (h : t.isIdentifier = true) (hb : Balanced b) : Balanced (t :: b) :=
  balanced_plain (ne_sym_of_isIdentifier h '(') (ne_sym_of_isIdentifier h ')') hb

theorem balanced_word (w : KeywordToken p) (hb : Balanced b) : Balanced (w.1 :: b) :=
  balanced_identifier (isIdentifier_of_isKeyword w.2) hb

theorem balanced_words (ws : List (KeywordToken p)) : Balanced (words ws) := by
  induction ws with
  | nil => exact balanced_nil
  | cons w ws ih => exact balanced_word w ih

theorem balanced_flatMap {α : Type} {f : α → List Token} (hf : ∀ x, Balanced (f x)) (xs : List α) :
    Balanced (xs.flatMap f) := by
  induction xs with
  | nil => exact balanced_nil
  | cons x xs ih => exact balanced_append (hf x) ih

theorem balanced_elim {α : Type} {f : α → List Token} (hf : ∀ x, Balanced (f x)) (x : Option α) :
    Balanced (x.elim [] f) := by
  cases x with
  | none => exact balanced_nil
  | some x => exact hf x

/-- The dot of a qualified name is no parenthesis. -/
theorem balanced_tableName (name : TableName) : Balanced name.tokens := by
  cases name with
  | plain table => exact balanced_identifier (isIdentifier_of_startsName table.2.1) balanced_nil
  | qualified schema table =>
      exact balanced_identifier (isIdentifier_of_startsName schema.2.1)
        (balanced_plain (by decide) (by decide) (balanced_identifier table.2 balanced_nil))

theorem balanced_names (names : Names) : Balanced names.tokens := by
  refine balanced_identifier names.first.2.1 (balanced_flatMap (fun name => ?_) _)
  exact balanced_plain (by decide) (by decide) (balanced_identifier name.2.1 balanced_nil)

theorem balanced_alias (label : Alias) : Balanced label.tokens := by
  cases label with
  | plain name => exact balanced_identifier name.2.1 balanced_nil
  | behindAs as name =>
      have hne := ne_sym_of_isAlias name.2
      exact balanced_word as (balanced_plain (hne '(') (hne ')') balanced_nil)

theorem balanced_purpose (purpose : Purpose) : Balanced purpose.tokens := by
  cases purpose with
  | join purpose word => exact balanced_word purpose (balanced_word word balanced_nil)
  | sorting purpose word by_ =>
      exact balanced_word purpose (balanced_word word (balanced_word by_ balanced_nil))

/-- The only parentheses of an index hint are those around its index names. -/
theorem balanced_hint (hint : Hint) : Balanced hint.tokens :=
  balanced_word _ (balanced_word _ (balanced_append (balanced_elim balanced_purpose _)
    (balanced_enclose (balanced_names _))))

theorem balanced_join (join : Join) : Balanced join.tokens :=
  balanced_append (balanced_words _) (balanced_word _ balanced_nil)

theorem balanced_separator (separator : Separator) : Balanced separator.tokens := by
  cases separator with
  | comma => exact balanced_plain (by decide) (by decide) balanced_nil
  | join join => exact balanced_join join

theorem balanced_partition (partition : Option (KeywordToken (· == .PARTITION) × Names)) :
    Balanced (partitionTokens partition) :=
  balanced_elim (fun _ => balanced_word _ (balanced_enclose (balanced_names _))) _

theorem balanced_derived (label : Option (Alias × Option Names)) : Balanced (derivedTokens label) :=
  balanced_elim (fun _ => balanced_append (balanced_alias _)
    (balanced_elim (fun _ => balanced_enclose (balanced_names _)) _)) _

/-- A token that a slot of the tree allows is neither a parenthesis nor a semicolon. -/
theorem isPlain_of_allows {usingTables : Bool} {slot : Slot}
    (h : slot.allows usingTables t = true) : isPlain t = true := by
  cases slot with
  | clause | group => exact (Bool.and_eq_true _ _ ▸ h).1
  | condition => exact (Bool.and_eq_true _ _ ▸ (Bool.and_eq_true _ _ ▸ h).1).1
  | inGroup => exact h

/-- The three symbols that a plain token is not. -/
theorem ne_sym_of_isPlain (h : isPlain t = true) :
    t ≠ .sym '(' ∧ t ≠ .sym ')' ∧ t ≠ .sym ';' := by
  simpa [isPlain, and_assoc] using h

/-! ## Trees -/

variable {usingTables : Bool}

mutual

/-- The tokens of a query are balanced. The induction is on the tree, with one lemma for each of its eight
    types. -/
theorem balanced_query (q : Query usingTables) : Balanced q.tokens := by
  cases q with
  | select select => exact balanced_select select
  | union select union all rest =>
      exact balanced_append (balanced_select select)
        (balanced_word union (balanced_append (balanced_words _) (balanced_query rest)))

theorem balanced_select (s : Select usingTables) : Balanced s.tokens := by
  cases s with
  | mk select modifiers columns from_ tables filter =>
      have htail := balanced_append (balanced_tables tables) (balanced_filter filter)
      have hcolumns := balanced_append (balanced_words modifiers) (balanced_parts columns)
      exact balanced_word select (balanced_append hcolumns (balanced_word from_ htail))

theorem balanced_filter (f : Filter usingTables) : Balanced f.tokens := by
  cases f with
  | none => exact balanced_nil
  | parts where_ parts => exact balanced_word where_ (balanced_parts parts)

theorem balanced_tables (ts : Tables usingTables) : Balanced ts.tokens := by
  cases ts with
  | last item => exact balanced_item item
  | lastIf item condition =>
      exact balanced_append (balanced_item item) (balanced_condition condition)
  | next item separator rest =>
      exact balanced_append (balanced_append (balanced_item item) (balanced_separator separator))
        (balanced_tables rest)
  | nextIf item condition join rest =>
      have hitem := balanced_append (balanced_item item) (balanced_condition condition)
      exact balanced_append (balanced_append hitem (balanced_join join)) (balanced_tables rest)

theorem balanced_condition (c : Condition usingTables) : Balanced c.tokens := by
  cases c with
  | on on parts => exact balanced_word on (balanced_parts parts)
  | columns using_ names => exact balanced_word using_ (balanced_enclose (balanced_names names))

theorem balanced_item (i : Item usingTables) : Balanced i.tokens := by
  cases i with
  | table name partition label hints =>
      have hname := balanced_append (balanced_tableName name) (balanced_partition partition)
      exact balanced_append (balanced_append hname (balanced_elim balanced_alias label))
        (balanced_flatMap balanced_hint hints)
  | dual dual => exact balanced_word dual balanced_nil
  | derived query label =>
      exact balanced_append (balanced_enclose (balanced_query query)) (balanced_derived label)
  | nested tables => exact balanced_enclose (balanced_tables tables)

theorem balanced_parts {slot : Slot} (ps : Parts usingTables slot) : Balanced ps.tokens := by
  match ps with
  | .nil => exact balanced_nil
  | .token token rest =>
      -- A slot allows no parenthesis of its own: one is there only around a query or a group.
      obtain ⟨ho, hc, _⟩ := ne_sym_of_isPlain (isPlain_of_allows token.2)
      exact balanced_plain ho hc (balanced_parts rest)
  | .query query rest =>
      exact balanced_append (balanced_enclose (balanced_query query)) (balanced_parts rest)
  | .group group rest =>
      exact balanced_append (balanced_enclose (balanced_parts group)) (balanced_parts rest)

end

end SqlTables.Grammar
