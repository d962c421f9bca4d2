import SqlTables.Proofs.Token.Suffix
import SqlTables.Proofs.Transparency

/-!
# `SqlTables.Proofs.Occurrence` — every reference stands in the statement

No reference is made up and none is found twice: the references of a statement stand at token ranges of
their own, one behind the other, however deeply they are nested and however malformed the text is.

Every routine uses up a part of the tokens in front of it, and what it finds stands in that part. A span
that is read on its own is a part of the tokens around it.

## Contents
- **`Occurs`**: references standing in tokens, in order and apart.
- **`Reads`**: findings that stand in the tokens a routine used up.
- One lemma `…_reads` or `occurs_…` for each routine, up to `occurs_extract`.
- **`StandsAt`** and **`read_references_standAt`**: the ranges.
-/

namespace SqlTables

open TokenSource

/-! ## References standing in tokens -/

/-- The references stand in the tokens one behind the other, each at tokens of its own. -/
inductive Occurs (lower : Bool) : List Token → List TableReference → Prop where
  | nil : Occurs lower [] []
  | skip (t : Token) {ts refs} : Occurs lower ts refs → Occurs lower (t :: ts) refs
  | table {t : Token} {ts refs} : t.isIdentifier = true → Occurs lower ts refs →
      Occurs lower (t :: ts) (⟨none, t.name lower⟩ :: refs)
  | qualified {u t : Token} {ts refs} : u.isIdentifier = true → t.isIdentifier = true →
      Occurs lower ts refs →
      Occurs lower (u :: .sym '.' :: t :: ts) (⟨some (u.name lower), t.name lower⟩ :: refs)

variable {lower : Bool} {a b : List Token} {refs refs' : List TableReference}

/-- Tokens may all be left out. -/
theorem occurs_none (lower : Bool) (ts : List Token) : Occurs lower ts [] := by
  induction ts with
  | nil => exact .nil
  | cons t ts ih => exact .skip t ih

/-- References of two parts one behind the other. -/
theorem occurs_append (h : Occurs lower a refs) (h' : Occurs lower b refs') :
    Occurs lower (a ++ b) (refs ++ refs') := by
  induction h with
  | nil => exact h'
  | skip t _ ih => exact .skip t ih
  | table ht _ ih => exact .table ht ih
  | qualified hu ht _ ih => exact .qualified hu ht ih

/-! ## What a routine used up -/

/-- A routine that found `x.1` in `s` and left `x.2`: the findings stand in the tokens between. -/
def Reads (lower : Bool) (s : List Token) (x : Findings × List Token) : Prop :=
  ∃ used, s = used ++ x.2 ∧ Occurs lower used x.1.references

variable {s s' rest rest' : List Token} {f g : Findings} {x : Findings × List Token}

/-- A routine leaves an end of the tokens. -/
theorem suffix_of_reads (h : Reads lower s x) : x.2 <:+ s := by
  obtain ⟨used, rfl, _⟩ := h
  exact List.suffix_append used x.2

/-- A routine that finds nothing only passes tokens. -/
theorem reads_of_suffix (hs : rest <:+ s) : Reads lower s (∅, rest) := by
  obtain ⟨used, rfl⟩ := hs
  exact ⟨used, rfl, occurs_none lower used⟩

/-- What is passed in front of a routine is used up as well. -/
theorem suffix_reads (hs : s' <:+ s) (h : Reads lower s' x) : Reads lower s x := by
  obtain ⟨pre, rfl⟩ := hs
  obtain ⟨used, rfl, hf⟩ := h
  exact ⟨pre ++ used, (List.append_assoc _ _ _).symm, occurs_append (occurs_none lower pre) hf⟩

/-- One routine behind another. -/
theorem reads_append (h : Reads lower s (f, rest)) (h' : Reads lower rest (g, rest')) :
    Reads lower s (f ++ g, rest') := by
  obtain ⟨used, rfl, hf⟩ := h
  obtain ⟨used', rfl, hg⟩ := h'
  exact ⟨used ++ used', (List.append_assoc _ _ _).symm, occurs_append hf hg⟩

/-- What is passed behind a routine is used up as well. -/
theorem reads_suffix (h : Reads lower s (f, rest)) (hs : rest' <:+ rest) :
    Reads lower s (f, rest') := by
  have happend := reads_append h (reads_of_suffix hs)
  rw [Findings.append_empty] at happend
  exact happend

/-- Names that a clause binds are no references. -/
theorem reads_ofNames (hs : rest <:+ s) (names : List String) :
    Reads lower s (.ofNames names, rest) := reads_of_suffix hs

/-- What a routine found and what stands in the tokens it left. -/
theorem occurs_of_reads (h : Reads lower s x) (h' : Occurs lower x.2 g.references) :
    Occurs lower s (x.1 ++ g).references := by
  obtain ⟨used, rfl, hf⟩ := h
  exact occurs_append hf h'

/-! ## Names -/

/-- The tokens of a qualified name. -/
def QualifiedName.written (name : QualifiedName) : List Token :=
  match name.schema with
  | none => [name.table]
  | some schema => [schema, .sym '.', name.table]

/-- A qualified name of identifiers. -/
structure QualifiedName.Proper (name : QualifiedName) : Prop where
  table : name.table.isIdentifier = true
  schema : ∀ schema ∈ name.schema, schema.isIdentifier = true

/-- A further part of a name is a dot and an identifier. -/
theorem dottedPart?_eq_some {part : Token} (h : dottedPart? s = some (part, rest)) :
    s = .sym '.' :: part :: rest ∧ part.isIdentifier = true := by
  simp only [dottedPart?, Option.bind_eq_bind, Option.bind_eq_some_iff] at h
  obtain ⟨mid, hd, ⟨t, r⟩, hn, hi⟩ := h
  rw [acceptSym?_eq_some_iff.mp hd, next?_eq_some_iff.mp hn]
  simp only at hi
  split at hi
  · next ht =>
      cases hi
      exact ⟨rfl, ht⟩
  · cases hi

/-- Of a longer chain the last two parts stay, and they stand next to each other. -/
theorem furtherParts_written {name : QualifiedName} (hname : name.Proper) (s : List Token) :
    (furtherParts name s).1.Proper ∧
      (furtherParts name s).1.written ++ (furtherParts name s).2 <:+ name.written ++ s := by
  fun_induction furtherParts name s with
  | case1 name s part rest h ih =>
      obtain ⟨rfl, hpart⟩ := dottedPart?_eq_some h
      have hproper : QualifiedName.Proper ⟨some name.table, part⟩ := by
        refine ⟨hpart, ?_⟩
        rintro _ ⟨⟩
        exact hname.table
      obtain ⟨hresult, hsuf⟩ := ih hproper
      refine ⟨hresult, hsuf.trans ?_⟩
      -- The table moves up to be the schema; a schema in front of it is dropped with its dot.
      cases hs : name.schema with
      | none =>
          rw [QualifiedName.written, QualifiedName.written, hs]
          exact List.suffix_refl _
      | some schema =>
          rw [QualifiedName.written, QualifiedName.written, hs]
          exact ⟨[schema, .sym '.'], rfl⟩
  | case2 name s h => exact ⟨hname, List.suffix_refl _⟩

/-- Of a chain of parts the last two are the name. They stand at its end, right in front of what is left. -/
theorem qualifiedName?_written {name : QualifiedName} (h : qualifiedName? s = some (name, rest)) :
    name.Proper ∧ name.written ++ rest <:+ s := by
  unfold qualifiedName? at h
  split at h
  · next t r hn =>
      rw [next?_eq_some_iff.mp hn]
      split at h
      · next ht =>
          have hid : t.isIdentifier = true := (Bool.and_eq_true _ _ ▸ ht).1
          have hproper : QualifiedName.Proper ⟨none, t⟩ := by
            refine ⟨hid, ?_⟩
            rintro _ ⟨⟩
          have hwritten := furtherParts_written hproper r
          rw [Option.some.inj h] at hwritten
          exact hwritten
      · cases h
  · cases h

/-! ## One level of a statement -/

variable {env : Env (List Token)} {bound : List String}

/-- A name is recorded once or, where it is bound, not at all. -/
theorem occurs_record {name : QualifiedName} (hname : name.Proper) (bound : List String) :
    Occurs env.lower name.written (env.record bound name).references := by
  unfold Env.record
  simp only
  split
  · exact occurs_none _ _
  · unfold QualifiedName.written
    cases hs : name.schema with
    | none => exact .table hname.table .nil
    | some schema => exact .qualified (hname.schema schema hs) hname.table .nil

/-- The reference to a table stands in the tokens of its name. -/
theorem tableName?_reads (h : tableName? env bound s = some x) : Reads env.lower s x := by
  simp only [tableName?, Option.map_eq_some_iff] at h
  obtain ⟨⟨name, r⟩, hq, rfl⟩ := h
  obtain ⟨hname, hsuf⟩ := qualifiedName?_written hq
  exact suffix_reads hsuf ⟨name.written, rfl, occurs_record hname bound⟩

theorem tableName_reads (env : Env (List Token)) (bound : List String) (s : List Token) :
    Reads env.lower s (tableName env bound s) := by
  unfold tableName
  cases h : tableName? env bound s with
  | none => exact reads_of_suffix (List.suffix_refl s)
  | some found => exact tableName?_reads h

/-- Names in a row stand one behind the other. -/
theorem tableNames_reads (env : Env (List Token)) (bound : List String) (s : List Token) :
    Reads env.lower s (tableNames env bound s) := by
  fun_induction tableNames env bound s with
  | case1 s => exact reads_of_suffix (List.suffix_refl s)
  | case2 s found rest h hc => exact tableName?_reads h
  | case3 s found rest h next hc more ih =>
      exact reads_append (tableName?_reads h) (suffix_reads (accept?_suffix hc) ih)

/-- The search for `ON` passes tokens, and the name stands behind them. -/
theorem tableAfterOn_reads (env : Env (List Token)) (bound : List String) (s : List Token) :
    Reads env.lower s (tableAfterOn env bound s) := by
  fun_induction tableAfterOn env bound s with
  | case1 s => exact reads_of_suffix (List.suffix_refl s)
  | case2 s rest h =>
      rw [next?_eq_some_iff.mp h]
      exact reads_of_suffix (List.suffix_cons _ rest)
  | case3 s t rest h hs ho =>
      rw [next?_eq_some_iff.mp h]
      exact suffix_reads (List.suffix_cons t rest) (tableName_reads env bound rest)
  | case4 s t rest h hs ho ih =>
      rw [next?_eq_some_iff.mp h]
      exact suffix_reads (List.suffix_cons t rest) ih

/-- The table of a schema change stands behind the words that tell its kind. -/
theorem ddlTargets_reads (env : Env (List Token)) (bound : List String) (type : StatementType)
    (s : List Token) : Reads env.lower s (ddlTargets env bound type s) := by
  have hsuf := ddlObject_suffix (type == .truncate) s
  unfold ddlTargets
  split
  · next rest hd =>
      rw [hd] at hsuf
      split
      · exact suffix_reads hsuf (tableNames_reads env bound rest)
      · exact suffix_reads hsuf (tableName_reads env bound rest)
  · next rest hd =>
      rw [hd] at hsuf
      have hname := (skipName_suffix _).trans (skipKeywords_suffix Keyword.isDdlFiller rest)
      exact suffix_reads (hname.trans hsuf) (tableAfterOn_reads env bound _)
  · next rest hd =>
      rw [hd] at hsuf
      exact reads_of_suffix hsuf

/-! ## Spans -/

/-- Whatever is searched, the findings stand in it. -/
def Env.Faithful (env : Env (List Token)) : Prop :=
  ∀ place bound s, Occurs env.lower s (env.search place bound s).references

/-- What a span holds stands in the tokens between its parentheses, as a reading of the span on its own finds
    it. -/
theorem span_reads (henv : env.Faithful) (place : Place) (bound : List String) (s : List Token) :
    Reads env.lower s (env.search place bound (enclosed s).1, (enclosed s).2) := by
  obtain ⟨close, hs⟩ := closeSpan_append 0 s
  -- The end of the span is used up too, though nothing stands in it.
  refine ⟨(enclosed s).1 ++ close, hs, ?_⟩
  have happend := occurs_append (henv place bound (enclosed s).1) (occurs_none env.lower close)
  rw [List.append_nil] at happend
  exact happend

/-- What an item finds stands in it, be it a name or in a span. -/
theorem tableItem?_reads (henv : env.Faithful) (h : tableItem? env bound s = some x) :
    Reads env.lower s x := by
  unfold tableItem? at h
  split at h
  · next inside hi =>
      cases h
      refine suffix_reads (accept?_suffix hi) (reads_suffix (span_reads henv _ bound inside) ?_)
      exact (skipIndexHints_suffix _).trans ((skipSpan_suffix _).trans (skipAlias_suffix _))
  · split at h
    · next r hd =>
        cases h
        have hafter := (skipIndexHints_suffix _).trans (skipAlias_suffix r)
        exact reads_of_suffix (hafter.trans (accept?_suffix hd))
    · split at h
      · next found r ht =>
          cases h
          refine reads_suffix (tableName?_reads ht) ?_
          exact (skipIndexHints_suffix _).trans
            ((skipAlias_suffix _).trans (skipPartition_suffix r))
      · cases h

/-- Items stand one behind the other. -/
theorem tableList_reads (henv : env.Faithful) (bound : List String) (s : List Token) :
    Reads env.lower s (tableList env bound s) := by
  fun_induction tableList env bound s with
  | case1 bound s => exact reads_of_suffix (List.suffix_refl s)
  | case2 bound s found rest h hn => exact tableItem?_reads henv h
  | case3 bound s found rest h next hn more ih =>
      exact reads_append (tableItem?_reads henv h) (suffix_reads (nextTable?_suffix hn) ih)

/-! ## `WITH` clauses and openings -/

/-- Of a definition only its body has references. The names that it binds are none. -/
theorem commonTables_reads (henv : env.Faithful) (isRecursive : Bool) (bound : List String)
    (s : List Token) : Reads env.lower s (commonTables env isRecursive bound s) := by
  -- Along the definitions: a name that is bound adds no reference, early or late.
  fun_induction commonTables env isRecursive bound s with
  | case1 bound s => exact reads_of_suffix (List.suffix_refl s)
  | case2 bound s t rest h hi name early stop hb =>
      rw [next?_eq_some_iff.mp h]
      have hstop := (openBody_error_suffix hb).trans (skipSpan_suffix rest)
      exact reads_ofNames (hstop.trans (List.suffix_cons t rest)) _
  | case3 bound s t rest h hi name early late inside hb found hc =>
      rw [next?_eq_some_iff.mp h]
      have hinside := ((openBody_suffix hb).trans (skipSpan_suffix rest)).trans
        (List.suffix_cons t rest)
      exact reads_append (reads_append (reads_ofNames hinside _) (span_reads henv _ _ inside))
        (reads_ofNames (List.suffix_refl _) _)
  | case4 bound s t rest h hi name early late inside hb found next hc more ih =>
      rw [next?_eq_some_iff.mp h]
      have hinside := ((openBody_suffix hb).trans (skipSpan_suffix rest)).trans
        (List.suffix_cons t rest)
      have hfound : Reads env.lower (t :: rest) (found, (enclosed inside).2) :=
        reads_append (reads_append (reads_ofNames hinside _) (span_reads henv _ _ inside))
          (reads_ofNames (List.suffix_refl _) _)
      exact reads_append hfound (suffix_reads (accept?_suffix hc) ih)
  | case5 bound s => exact reads_of_suffix (List.suffix_refl s)

/-- A clause with or without `RECURSIVE`. -/
theorem withClause_reads (henv : env.Faithful) (bound : List String) (s : List Token) :
    Reads env.lower s (withClause env bound s) := by
  unfold withClause
  split
  · next rest h => exact suffix_reads (accept?_suffix h) (commonTables_reads henv true bound rest)
  · exact commonTables_reads henv false bound s

/-- The clauses of an opening stand in front of its command. -/
theorem opening_reads (henv : env.Faithful) (bound : List String) (s : List Token) :
    Reads env.lower s ((opening env bound s).found, (opening env bound s).rest) := by
  fun_induction opening env bound s with
  | case1 bound s => exact reads_of_suffix (List.suffix_refl s)
  | case2 bound s t rest h hk clause more ih =>
      rw [next?_eq_some_iff.mp h]
      have hclause := suffix_reads (List.suffix_cons t rest) (withClause_reads henv bound rest)
      exact reads_append hclause ih
  | case3 bound s t rest h =>
      rw [next?_eq_some_iff.mp h]
      exact reads_of_suffix (List.suffix_cons t rest)
  | case4 | case5 | case6 => exact reads_of_suffix (List.suffix_refl _)

/-! ## Statements -/

/-- The tables that a command names itself stand behind its modifiers. -/
theorem targets_reads (henv : env.Faithful) (bound : List String) (type : StatementType)
    (s : List Token) : Reads env.lower s (targets env bound type s) := by
  cases type with
  | insert | replace => exact suffix_reads (skipKeywords_suffix _ s) (tableName_reads env bound _)
  | update => exact suffix_reads (skipKeywords_suffix _ s) (tableList_reads henv bound _)
  | alter | drop | create | truncate => exact ddlTargets_reads env bound _ s
  | select => exact reads_of_suffix (skipKeywords_suffix _ s)
  | delete | unknown => exact reads_of_suffix (List.suffix_refl s)

/-- What a token leads to stands behind it. -/
theorem clause_reads (henv : env.Faithful) (bound : List String) (t : Token) (rest : List Token) :
    Reads env.lower rest (clause env bound t rest) := by
  unfold clause
  split
  · exact span_reads henv .expression bound rest
  · split
    · split
      · exact tableList_reads henv bound rest
      · split
        · exact reads_of_suffix (skipKeywords_suffix _ rest)
        · split
          · exact tableList_reads henv bound rest
          · exact reads_of_suffix (List.suffix_refl rest)
    · exact reads_of_suffix (List.suffix_refl rest)

/-- The references of the rest of a statement stand in it, clause by clause. -/
theorem occurs_body (henv : env.Faithful) (isTop : Bool) (bound : List String) (s : List Token) :
    Occurs env.lower s (body env isTop bound s).references := by
  fun_induction body env isTop bound s with
  | case1 => exact occurs_none _ _
  | case2 => exact occurs_none _ _
  | case3 bound s t rest h hs part ih =>
      rw [next?_eq_some_iff.mp h]
      exact .skip t (occurs_of_reads (clause_reads henv bound t rest) ih)

/-- Those of expressions stand in the spans among them. -/
theorem occurs_expression (henv : env.Faithful) (bound : List String) (s : List Token) :
    Occurs env.lower s (expression env bound s).references := by
  fun_induction expression env bound s with
  | case1 => exact occurs_none _ _
  | case2 bound s rest found h ih =>
      rw [next?_eq_some_iff.mp h]
      exact .skip _ (occurs_of_reads (span_reads henv .expression bound rest) ih)
  | case3 bound s t rest h ho ih =>
      rw [next?_eq_some_iff.mp h]
      exact .skip t ih

theorem occurs_afterOpening (henv : env.Faithful) (isTop : Bool) (bound : List String)
    (type : StatementType) (s : List Token) :
    Occurs env.lower s (afterOpening env isTop bound type s).references :=
  occurs_of_reads (targets_reads henv bound type s) (occurs_body henv isTop _ _)

theorem occurs_query (henv : env.Faithful) (bound : List String) (s : List Token) :
    Occurs env.lower s (query env bound s).references :=
  occurs_of_reads (opening_reads henv bound s) (occurs_afterOpening henv false _ _ _)

/-- A span is a part of the tokens around it, and so its references stand in these. -/
theorem occurs_span (henv : env.Faithful) (place : Place) (bound : List String) (s : List Token) :
    Occurs env.lower s (span env place bound s).references := by
  unfold span
  split
  · exact occurs_query henv bound s
  · cases place with
    | expression => exact occurs_expression henv bound s
    | tableList => exact occurs_of_reads (tableList_reads henv bound s) (occurs_body henv false _ _)

/-- However many levels are searched, the findings stand in the tokens. -/
theorem faithful_nested (lower usingTables : Bool) (depth : Nat) :
    (Env.nested lower usingTables depth).Faithful := by
  induction depth with
  | zero => exact fun _ _ s => occurs_none _ s
  | succ depth ih =>
      intro place bound s
      have hspan := occurs_span ih place bound s
      rw [lower_nested] at hspan
      exact hspan

/-- The references of a statement stand in its tokens. -/
theorem occurs_extract (options : Options) (held : StatementType) (ts : List Token) :
    Occurs options.lowerCaseNames ts (extract options held ts).2 := by
  have henv : ∀ type : StatementType, (Env.nested options.lowerCaseNames (type == .delete)
      options.maxDepth).Faithful := fun type => faithful_nested _ _ _
  have hstart := opening_reads (henv held) [] ts
  -- What follows the opening is read for the type it set, with a table list behind `USING` or without.
  have hrest := occurs_afterOpening
    (henv (held.orElse (opening (.nested options.lowerCaseNames (held == .delete) options.maxDepth) []
      ts).type)) true
  rw [lower_nested] at hstart
  simp only [lower_nested] at hrest
  exact occurs_of_reads hstart (hrest _ _ _)

/-! ## Ranges of tokens -/

/-- An identifier at a position that spells a name. -/
def NamedAt (lower : Bool) (ts : List Token) (i : Nat) (name : String) : Prop :=
  ∃ t, ts[i]? = some t ∧ t.isIdentifier = true ∧ t.name lower = name

/-- A reference stands at a range of tokens, of which both ends count: the table at its end, and in
    front of it, if the reference has one, the schema and a dot. -/
structure StandsAt (lower : Bool) (ts : List Token) (range : Nat × Nat) (r : TableReference) :
    Prop where
  table : NamedAt lower ts range.2 r.table
  alone : r.schema = none → range.1 = range.2
  schema : ∀ name ∈ r.schema, range.1 + 2 = range.2 ∧ ts[range.1 + 1]? = some (.sym '.') ∧
    NamedAt lower ts range.1 name

/-- A range behind `k` more tokens. -/
def shift (k : Nat) (range : Nat × Nat) : Nat × Nat := (range.1 + k, range.2 + k)

/-- Tokens in front move the range of a reference by their number. -/
theorem standsAt_shift {ts : List Token} {range : Nat × Nat} {r : TableReference}
    (pre : List Token) (h : StandsAt lower ts range r) :
    StandsAt lower (pre ++ ts) (shift pre.length range) r := by
  have hget : ∀ i, (pre ++ ts)[i + pre.length]? = ts[i]? := by
    intro i
    rw [List.getElem?_append_right (Nat.le_add_left _ _), Nat.add_sub_cancel]
  refine ⟨?_, fun hn => congrArg (· + pre.length) (h.alone hn), fun name hname => ?_⟩
  · unfold NamedAt shift
    rw [hget]
    exact h.table
  · obtain ⟨hrange, hdot, hschema⟩ := h.schema name hname
    refine ⟨?_, ?_, ?_⟩
    · simp only [shift]
      omega
    · simp only [shift]
      rw [Nat.add_right_comm, hget]
      exact hdot
    · unfold NamedAt shift
      rw [hget]
      exact hschema

/-- The ranges of references in order and apart, with whatever stands in front of them. -/
def InRanges (lower : Bool) (ts : List Token) (refs : List TableReference) : Prop :=
  ∃ ranges, List.Forall₂ (StandsAt lower ts) ranges refs ∧
    ranges.Pairwise fun range later => range.2 < later.1

/-- All ranges are moved alike, so they stay apart. -/
theorem inRanges_behind (pre : List Token) (h : InRanges lower a refs) :
    ∃ ranges, List.Forall₂ (StandsAt lower (pre ++ a)) ranges refs ∧
      (ranges.Pairwise fun range later => range.2 < later.1) ∧
      ∀ range ∈ ranges, pre.length ≤ range.1 := by
  obtain ⟨ranges, hstands, hapart⟩ := h
  refine ⟨ranges.map (shift pre.length), ?_, ?_, ?_⟩
  · rw [List.forall₂_map_left_iff]
    exact hstands.imp fun _ _ => standsAt_shift pre
  · rw [List.pairwise_map]
    exact hapart.imp fun hlt => Nat.add_lt_add_right hlt _
  · intro range hrange
    obtain ⟨inner, _, rfl⟩ := List.mem_map.mp hrange
    exact Nat.le_add_left _ _

/-- One more reference in front, at the last tokens before the others. -/
theorem inRanges_cons {r : TableReference} (pre : List Token) (range : Nat × Nat)
    (hr : StandsAt lower (pre ++ a) range r) (hlt : range.2 < pre.length)
    (h : InRanges lower a refs) : InRanges lower (pre ++ a) (r :: refs) := by
  obtain ⟨ranges, hstands, hapart, hbehind⟩ := inRanges_behind pre h
  refine ⟨range :: ranges, .cons hr hstands, List.pairwise_cons.mpr ⟨?_, hapart⟩⟩
  intro later hlater
  exact Nat.lt_of_lt_of_le hlt (hbehind later hlater)

/-- References that stand in tokens have ranges there, one behind the other. -/
theorem inRanges_of_occurs (h : Occurs lower a refs) : InRanges lower a refs := by
  induction h with
  | nil => exact ⟨[], .nil, .nil⟩
  | skip t _ ih =>
      obtain ⟨ranges, hstands, hapart, _⟩ := inRanges_behind [t] ih
      exact ⟨ranges, hstands, hapart⟩
  | @table t ts refs ht _ ih =>
      refine inRanges_cons [t] (0, 0) ⟨⟨t, rfl, ht, rfl⟩, fun _ => rfl, ?_⟩
        Nat.zero_lt_one ih
      rintro name ⟨⟩
  | @qualified u t ts refs hu ht _ ih =>
      refine inRanges_cons [u, .sym '.', t] (0, 2) ⟨⟨t, rfl, ht, rfl⟩, ?_, ?_⟩
        (Nat.lt_succ_self 2) ih
      · rintro ⟨⟩
      · rintro name ⟨⟩
        exact ⟨rfl, rfl, u, rfl, hu, rfl⟩

/-! ## Whole summaries -/

/-- **Nothing is made up, and nothing counts twice.** What reading a statement adds to a summary stands
    at ranges of its tokens that follow one another and share no token. -/
theorem read_references_standAt (summary : Summary) (options : Options) (text : Bytes) :
    ∃ found ranges,
      (summary.read options text).references = summary.references ++ found ∧
      List.Forall₂ (StandsAt options.lowerCaseNames text.tokens) ranges found ∧
      ranges.Pairwise fun range later => range.2 < later.1 := by
  have hoccurs := occurs_extract options summary.type text.tokens
  rw [← extract_tokens] at hoccurs
  obtain ⟨ranges, hstands, hapart⟩ := inRanges_of_occurs hoccurs
  exact ⟨_, ranges, rfl, hstands, hapart⟩

end SqlTables
