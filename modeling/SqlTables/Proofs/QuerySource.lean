import SqlTables.Proofs.Filling
import SqlTables.Proofs.Union

/-!
# `SqlTables.Proofs.QuerySource` — what a query adds to the statement around it

A query adds the same references wherever it stands as a source: as a statement of its own, behind the table
that a command fills from it, or behind a `UNION`.

## Contents
- **`UnionKind`** and **`unionText`**: two queries with a `UNION` between them, as they are written.
- **`parse_union`**: the summary of both.
- **`parse_querySource`**: a query in each of these places.
-/

namespace SqlTables

open TokenSource Grammar

/-! ## Unions as they are written -/

/-- What may stand behind `UNION`. -/
inductive UnionKind where
  | plain
  | all
  | distinct
  deriving DecidableEq

/-- The words of the union. -/
def UnionKind.words : UnionKind → List String
  | plain => ["UNION"]
  | all => ["UNION", "ALL"]
  | distinct => ["UNION", "DISTINCT"]

/-- A query and, on a new line, a `UNION` and another query. -/
def unionText (kind : UnionKind) (front query : Bytes) : Bytes :=
  onNewLine front (spaced kind.words query)

/-- The tokens of both queries stand on the two sides of the words between them. -/
theorem tokens_unionText {front : Bytes} (hc : front.closes = true) (kind : UnionKind)
    (query : Bytes) :
    (unionText kind front query).tokens = front.tokens ++ (wordTokens kind.words ++ query.tokens) := by
  have hwords : ∀ word ∈ kind.words, isWord word = true := by cases kind <;> decide
  rw [unionText, tokens_append_of_closes hc, tokens_spaced hwords]
  rfl

/-! ## The words between the queries -/

variable {front query : Bytes} {s z : List Token}

theorem starts_union (kind : UnionKind) (z : List Token) :
    Starts IsMark (wordTokens kind.words ++ z) := by
  have hmark : IsMark (.word (ascii "UNION")) := Or.inr (by decide)
  cases kind with
  | plain | all | distinct => exact starts_cons hmark

/-- Behind `UNION` comes a word that a query starts with. -/
theorem resumes_union (kind : UnionKind) (hz : Starts (·.keyword? = some .SELECT) z) :
    Starts Resumes (wordTokens kind.words ++ z).tail := by
  have hword : ∀ word ∈ ["ALL", "DISTINCT"], Resumes (.word (ascii word)) := by
    unfold Resumes
    decide
  cases kind with
  | plain =>
      refine starts_imp (fun t ht => ?_) hz
      rw [Resumes, Token.isKeyword_of_keyword? ht]
      rfl
  | all => exact starts_cons (hword "ALL" (by decide))
  | distinct => exact starts_cons (hword "DISTINCT" (by decide))

/-- `UNION` contributes nothing itself. -/
theorem body_union (env : Env (List Token)) (bound : List String) (kind : UnionKind)
    (z : List Token) :
    body env true bound (wordTokens kind.words ++ z) =
      body env true bound (wordTokens kind.words ++ z).tail := by
  have hpasses : ∀ rest, body env true bound (.word (ascii "UNION") :: rest) =
      body env true bound rest := fun rest => body_passes (next?_cons _ rest) (by decide) rfl
  cases kind with
  | plain | all | distinct => exact hpasses _

/-- The words between two queries have no table. -/
theorem body_unionWords (env : Env (List Token)) (kind : UnionKind) (z : List Token) :
    body env true [] (wordTokens kind.words ++ z) = body env true [] z := by
  have hword : ∀ word ∈ ["ALL", "DISTINCT"],
      (Token.word (ascii word)).isKeyword (fun k => k == .ALL || k == .DISTINCT) = true := by
    decide
  rw [body_union]
  cases kind with
  | plain => rfl
  | all => exact body_word (forall_keyword (by decide)) ⟨_, hword "ALL" (by decide)⟩ z
  | distinct => exact body_word (forall_keyword (by decide)) ⟨_, hword "DISTINCT" (by decide)⟩ z

/-! ## Two queries -/

/-- What stands behind a mark does not change how a query starts. -/
theorem bareQuery_before (hz : Starts IsMark z) (h : BareQuery s) : BareQuery (s ++ z) := by
  cases h with
  | select hk => exact .select hk
  | parenthesized hq => exact .parenthesized ((startsParenthesizedQuery_before hz _).trans hq)

theorem not_suffix_of_getLast? {t : Token} (h : s.getLast? ≠ some t) : ¬ [t] <:+ s := by
  rintro ⟨pre, rfl⟩
  exact h List.getLast?_concat

/-- The first token is a `SELECT`. -/
def startsSelect (s : List Token) : Bool := s.head?.any (·.isKeyword (· == .SELECT))

theorem keyword?_of_startsSelect (h : startsSelect z = true) :
    ∃ t rest, z = t :: rest ∧ t.keyword? = some .SELECT := by
  cases z with
  | nil => cases h
  | cons t rest => exact ⟨t, rest, rfl, keyword?_of_isKeyword h⟩

theorem bareQuery_of_startsSelect (h : startsSelect z = true) : BareQuery z := by
  obtain ⟨t, rest, rfl, hk⟩ := keyword?_of_startsSelect h
  exact .select hk

/-- Both queries contribute what they contribute on their own. -/
theorem statement_union (options : Options) (kind : UnionKind) (hs : Closed s) (hquery : BareQuery s)
    (hsemi : .sym ';' ∉ s) (hplain : ∀ t ∈ s, t.keyword? ≠ some .WITH)
    (hdot : s.getLast? ≠ some (.sym '.')) (hz : startsSelect z = true) :
    statement options .unknown [] (s ++ (wordTokens kind.words ++ z)) =
      statement options .unknown [] s ++ statement options .unknown [] z := by
  have hmark := starts_union kind z
  have hselect : Starts (·.keyword? = some .SELECT) z := by
    obtain ⟨t, rest, rfl, hk⟩ := keyword?_of_startsSelect hz
    exact starts_cons hk
  have hparted : Parted s (wordTokens kind.words ++ z) :=
    { closed := hs
      apart := fun _ _ _ => not_suffix_of_getLast? hdot
      mark := hmark
      resumes := resumes_union kind hselect }
  rw [statement_eq_body options [] (bareQuery_before hmark hquery), statement_eq_body options [] hquery,
    statement_eq_body options [] (bareQuery_of_startsSelect hz),
    body_before (faithful_outer options .select) hparted hsemi fun b => body_union _ b kind z,
    bound_body options .select true [] hplain]
  exact congrArg _ (body_unionWords _ kind z)

/-! ## A query as a source -/

/-- A query has the tables of its tokens, read as the body of a statement. -/
theorem parse_of_startsSelect (options : Options) (hq : startsSelect query.tokens = true) :
    (parse options query).references =
      (body (.outer options .select) true [] query.tokens).references := by
  rw [parse_eq_tokens, statement_eq_body options [] (bareQuery_of_startsSelect hq)]

/-- Behind a table that a command fills, a query adds its references to the table. -/
theorem parse_filling_select (options : Options) (hq : startsSelect query.tokens = true) (f : Filling)
    (table : Bytes) :
    parse options (f.text table query) =
      { type := f.type
        references := ⟨none, recordedName options.lowerCaseNames table⟩ ::
          (parse options query).references } := by
  have hdot : Starts (· ≠ .sym '.') query.tokens := by
    obtain ⟨t, rest, ht, hk⟩ := keyword?_of_startsSelect hq
    rw [ht]
    apply starts_cons
    rintro rfl
    cases hk
  rw [parse_filling options f table hdot, parse_of_startsSelect options hq]

/-- Behind a `UNION`, a query adds its references to those of the query in front. -/
theorem parse_union (options : Options) (hq : startsSelect query.tokens = true) (kind : UnionKind)
    (hc : front.closes = true) (hs : Closed front.tokens) (htype : (parse options front).type = .select)
    (hsemi : .sym ';' ∉ front.tokens) (hplain : ∀ t ∈ front.tokens, t.keyword? ≠ some .WITH)
    (hdot : front.tokens.getLast? ≠ some (.sym '.')) :
    parse options (unionText kind front query) =
      { type := .select
        references := (parse options front).references ++ (parse options query).references } := by
  have hfirst : Starts (fun t => t.keyword? ≠ some .WITH) front.tokens :=
    fun t ht => hplain t (List.mem_of_mem_head? ht)
  have hquery : BareQuery front.tokens := by
    rw [parse_eq_tokens] at htype
    exact bareQuery_of_command hfirst htype
  have hcommand := command_bareQuery (bareQuery_before (starts_union kind query.tokens) hquery)
  rw [parse_eq_tokens, parse_eq_tokens, parse_eq_tokens, tokens_unionText hc, hcommand,
    statement_union options kind hs hquery hsemi hplain hdot hq]
  rfl

/-- **A query as a source.** A text that starts with `SELECT` adds the references that it has on its own:
    behind a table to that table, and behind a `UNION` to those of the query in front of it. That query
    leaves no quoted text, no comment and no parenthesis open and does not end in a dot; a table may
    be left without its alias, a hint without its columns or a join without its table. -/
theorem parse_querySource (options : Options) {query : Bytes}
    (hq : startsSelect query.tokens = true) :
    (∀ (f : Filling) (table : Bytes), parse options (f.text table query) =
      { type := f.type
        references := ⟨none, recordedName options.lowerCaseNames table⟩ ::
          (parse options query).references }) ∧
    ∀ (kind : UnionKind) (front : Bytes), front.closes = true → Closed front.tokens →
      (parse options front).type = .select → .sym ';' ∉ front.tokens →
      (∀ t ∈ front.tokens, t.keyword? ≠ some .WITH) → front.tokens.getLast? ≠ some (.sym '.') →
      parse options (unionText kind front query) =
        { type := .select
          references := (parse options front).references ++ (parse options query).references } := by
  constructor
  · intro f table
    exact parse_filling_select options hq f table
  · intro kind front hc hs htype hsemi hplain hdot
    exact parse_union options hq kind hc hs htype hsemi hplain hdot

/-- The first query breaks off in an index hint, so that the `UNION` is taken for a part of it. -/
theorem parse_querySource_hint :
    let query := ascii "SELECT 1 FROM b, (c"
    let front := ascii "SELECT 1 FROM a USE INDEX FOR"
    let table := ascii "t`u"
    startsSelect query.tokens = true ∧ front.closes = true ∧ Closed front.tokens ∧
      (parse {} front).type = .select ∧ .sym ';' ∉ front.tokens ∧
      (∀ t ∈ front.tokens, t.keyword? ≠ some .WITH) ∧
      front.tokens.getLast? ≠ some (.sym '.') ∧
      (parse {} front).references = [⟨none, "a"⟩] ∧
      (parse {} query).references = [⟨none, "b"⟩, ⟨none, "c"⟩] ∧
      parse {} (unionText .all front query) =
        { type := .select
          references := (parse {} front).references ++ (parse {} query).references } ∧
      parse {} (Filling.insertInto.text table query) =
        { type := .insert
          references := ⟨none, recordedName false table⟩ :: (parse {} query).references } := by
  intro query front table
  have hq : startsSelect query.tokens = true := by decide +kernel
  have hc : front.closes = true := by decide +kernel
  have hs : Closed front.tokens := by decide +kernel
  have htype : (parse {} front).type = .select := by decide +kernel
  have hsemi : .sym ';' ∉ front.tokens := by decide +kernel
  have hplain : ∀ t ∈ front.tokens, t.keyword? ≠ some .WITH := by decide +kernel
  have hdot : front.tokens.getLast? ≠ some (.sym '.') := by decide +kernel
  obtain ⟨hfilling, hunion⟩ := parse_querySource {} hq
  refine ⟨hq, hc, hs, htype, hsemi, hplain, hdot, ?_, ?_, ?_, ?_⟩
  · decide +kernel
  · decide +kernel
  · exact hunion .all front hc hs htype hsemi hplain hdot
  · exact hfilling .insertInto table

end SqlTables
