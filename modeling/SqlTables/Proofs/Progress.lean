import SqlTables.Proofs.Cursor
import SqlTables.Proofs.Progress.Steps
import SqlTables.Proofs.Token.Ahead
import SqlTables.Proofs.Token.Spans

/-!
# `SqlTables.Proofs.Progress` — reading comes to an end

Every turn of a loop and every jump of a reader goes ahead in the buffer. Every span that is handed on is
shorter than its buffer and has fewer parentheses, so the depth is bounded by the parentheses of the statement
as well as by the limit.

## Contents
- **`Forward`** and **`Step.Bounded`**: what holds of every step.
- **`Level.Sound`**: a level whose spans take bounded steps, with one lemma `bounded_…` for each routine.
- **`sound_nested`** and **`reading_within_bounds`**: all levels, and a statement as a whole.
-/

namespace SqlTables

open TokenSource

/-! ## Bounded steps -/

/-- A reader goes ahead in its buffer: both places are ends of the buffer, and the offset of the second one is
    greater. -/
structure Forward (buffer before after : Bytes) : Prop where
  before_suffix : before <:+ buffer
  after_suffix : after <:+ buffer
  ahead : offset buffer before < offset buffer after
  inside : offset buffer after ≤ buffer.length

/-- What holds of every step while a statement is read under a limit of nesting. -/
def Step.Bounded (maxDepth : Nat) (text : Bytes) : Step → Prop
  | turn _ buffer before after => Forward buffer before after
  | commit buffer before after => Forward buffer before after
  | search depth buffer span =>
      span.length < buffer.length ∧ depth ≤ maxDepth ∧ depth + 1 ≤ text.count '('.toUInt8
  | enter depth => depth ≤ maxDepth ∧ depth ≤ text.count '('.toUInt8

/-- All steps on the way to a value are bounded. -/
def Logged.Bounded {α : Type} (maxDepth : Nat) (text : Bytes) (x : Logged α) : Prop :=
  ∀ e ∈ x.steps, e.Bounded maxDepth text

namespace Logged

variable {α β : Type} {maxDepth : Nat} {text : Bytes}

theorem bounded_pure (a : α) : (pure a : Logged α).Bounded maxDepth text := List.forall_mem_nil _

theorem bounded_note {e : Step} (h : e.Bounded maxDepth text) : (note e).Bounded maxDepth text :=
  List.forall_mem_singleton.mpr h

theorem Bounded.bind {x : Logged α} {f : α → Logged β} (hx : x.Bounded maxDepth text)
    (hf : (f x.value).Bounded maxDepth text) : (x >>= f).Bounded maxDepth text :=
  List.forall_mem_append.mpr ⟨hx, hf⟩

end Logged

open Logged (bounded_pure bounded_note)

variable {buffer before after s rest inside : Bytes} {t : Token}

/-- Less in front of a reader means a greater offset. -/
theorem forward_of_length (hbefore : before <:+ buffer) (hafter : after <:+ before)
    (hlt : after.length < before.length) : Forward buffer before after where
  before_suffix := hbefore
  after_suffix := hafter.trans hbefore
  ahead := by
    have hle := hbefore.length_le
    rw [offset, offset]
    omega
  inside := offset_le buffer after

/-- Readers leave an end of what was in front of them. -/
theorem ahead_bytes : Ahead (fun s rest : Bytes => rest <:+ s) where
  refl := List.suffix_refl
  trans hab hbc := hbc.trans hab
  next := suffix_of_nextToken?
  behind := enclosed_rest_suffix

/-! ## Spans that are handed on -/

/-- Behind an opening parenthesis of the buffer. -/
def Opened (buffer inside : Bytes) : Prop := '('.toUInt8 :: inside <:+ buffer

theorem opened_of_next? (hs : s <:+ buffer) (h : next? s = some (.sym '(', rest)) : Opened buffer rest := by
  have hgap : skipGap s = '('.toUInt8 :: rest := skipGap_of_nextToken?_punct h
  rw [Opened, ← hgap]
  exact (skipGap_suffix s).trans hs

/-- Behind a `(` that was accepted. -/
theorem opened_of_acceptSym? (hs : s <:+ buffer) (h : acceptSym? '(' s = some rest) :
    Opened buffer rest := by
  unfold acceptSym? accept? at h
  split at h
  · next t r hn =>
      split at h
      · next ht =>
          cases h
          rw [beq_iff_eq.mp ht] at hn
          exact opened_of_next? hs hn
      · cases h
  · cases h

/-- Behind the `(` of `AS (`. -/
theorem opened_of_openBody (hs : s <:+ buffer) (h : openBody s = .ok inside) : Opened buffer inside := by
  unfold openBody at h
  split at h
  · cases h
  · next rest ha =>
      split at h
      · cases h
      · next hp =>
          cases h
          exact opened_of_acceptSym? ((accept?_ahead ahead_bytes ha).trans hs) hp

/-- A span is shorter than the buffer around it, and has fewer parentheses. -/
theorem span_smaller (h : Opened buffer inside) :
    inside.enclosed.1.length < buffer.length ∧
      inside.enclosed.1.count '('.toUInt8 < buffer.count '('.toUInt8 := by
  have hspan := enclosed_span_prefix inside
  have hlength := h.length_le
  have hcount := h.sublist.count_le '('.toUInt8
  rw [List.length_cons] at hlength
  rw [List.count_cons_self] at hcount
  exact ⟨Nat.lt_of_le_of_lt hspan.length_le hlength, Nat.lt_of_le_of_lt (hspan.sublist.count_le _) hcount⟩

/-- A level whose spans take bounded steps. Its depth and the parentheses that are still in its buffer come from
    the parentheses of the statement. -/
structure Level.Sound (maxDepth : Nat) (text : Bytes) (l : Level) : Prop where
  depth_le : l.depth ≤ maxDepth
  parens_le : l.depth + l.buffer.count '('.toUInt8 ≤ text.count '('.toUInt8
  search (place : Place) (bound : List String) (span : Bytes) :
    span.count '('.toUInt8 < l.buffer.count '('.toUInt8 → (l.search place bound span).Bounded maxDepth text

namespace Level

variable {maxDepth : Nat} {text : Bytes} {l : Level} {bound : List String} {loop : Loop}

theorem bounded_turn (h : Forward l.buffer before after) :
    (l.turn loop before after).Bounded maxDepth text :=
  bounded_note h

theorem bounded_commit (h : Forward l.buffer before after) :
    (l.commit before after).Bounded maxDepth text :=
  bounded_note h

/-- To hand a span on is bounded, and so is the search of it: the span has lost a parenthesis of its
    buffer. -/
theorem bounded_handOn (hl : l.Sound maxDepth text) (h : Opened l.buffer inside) (place : Place)
    (bound : List String) : (l.handOn place bound (enclosed inside).1).Bounded maxDepth text := by
  obtain ⟨hlength, hcount⟩ := span_smaller h
  have hparens := hl.parens_le
  have hstep : (Step.search l.depth l.buffer (enclosed inside).1).Bounded maxDepth text :=
    ⟨hlength, hl.depth_le, by omega⟩
  exact (bounded_note hstep).bind (hl.search place bound _ hcount)

/-! ## Loops that pass over tokens -/

/-- Each turn passes a token. -/
theorem bounded_skipWhile (loop : Loop) (p : Token → Bool) (hs : s <:+ l.buffer) :
    (l.skipWhile loop p s).Bounded maxDepth text := by
  fun_induction skipWhile l loop p s with
  | case1 s rest h ih =>
      have hrest := accept?_ahead ahead_bytes h
      have hturn := forward_of_length hs hrest (size_lt_of_accept? h)
      exact (bounded_turn hturn).bind (ih (hrest.trans hs))
  | case2 s h => exact bounded_pure s

theorem bounded_skipKeywords (loop : Loop) (p : Keyword → Bool) (hs : s <:+ l.buffer) :
    (l.skipKeywords loop p s).Bounded maxDepth text :=
  bounded_skipWhile loop _ hs

/-! ## Names -/

/-- Each turn passes a dot and a part, and puts the reader behind them. -/
theorem bounded_furtherParts (name : QualifiedName) (hs : s <:+ l.buffer) :
    (l.furtherParts name s).Bounded maxDepth text := by
  fun_induction furtherParts l name s with
  | case1 name s part rest h ih =>
      have hrest := dottedPart?_ahead ahead_bytes h
      have hturn := forward_of_length hs hrest (size_lt_of_dottedPart? h)
      exact (bounded_commit hturn).bind ((bounded_turn hturn).bind (ih (hrest.trans hs)))
  | case2 name s h => exact bounded_pure _

/-- The first part is no turn of the loop. -/
theorem bounded_qualifiedName? (hs : s <:+ l.buffer) : (l.qualifiedName? s).Bounded maxDepth text := by
  unfold qualifiedName?
  split
  · next t rest h =>
      split
      · exact (bounded_furtherParts _ ((ahead_bytes.next h).trans hs)).bind (bounded_pure _)
      · exact bounded_pure none
  · exact bounded_pure none

theorem bounded_skipName (hs : s <:+ l.buffer) : (l.skipName s).Bounded maxDepth text :=
  (bounded_qualifiedName? hs).bind (bounded_pure _)

theorem bounded_tableName? (bound : List String) (hs : s <:+ l.buffer) :
    (l.tableName? bound s).Bounded maxDepth text :=
  (bounded_qualifiedName? hs).bind (bounded_pure _)

theorem bounded_tableName (bound : List String) (hs : s <:+ l.buffer) :
    (l.tableName bound s).Bounded maxDepth text :=
  (bounded_tableName? bound hs).bind (bounded_pure _)

/-! ## Lists of tables -/

/-- Each turn passes a hint, of two words at least, and puts the reader behind it. -/
theorem bounded_skipIndexHints (hs : s <:+ l.buffer) : (l.skipIndexHints s).Bounded maxDepth text := by
  fun_induction skipIndexHints l s with
  | case1 s rest h ih =>
      have hrest := indexHint?_ahead ahead_bytes h
      have hturn := forward_of_length hs hrest (size_lt_of_indexHint? h)
      exact (bounded_commit hturn).bind ((bounded_turn hturn).bind (ih (hrest.trans hs)))
  | case2 s h => exact bounded_pure s

/-- The reader is put behind a comma or a join, which its copy has passed. -/
theorem bounded_nextTable? (hs : s <:+ l.buffer) : (l.nextTable? s).Bounded maxDepth text := by
  have hnext {rest : Bytes} (h : SqlTables.nextTable? s = some rest) :
      (l.commit s rest).Bounded maxDepth text := by
    have hrest := nextTable?_ahead ahead_bytes h
    exact bounded_commit (forward_of_length hs hrest (size_lt_of_nextTable? h))
  unfold nextTable?
  unfold SqlTables.nextTable? at hnext
  split
  · next rest hc =>
      rw [hc] at hnext
      exact (hnext rfl).bind (bounded_pure _)
  · next hc =>
      rw [hc] at hnext
      refine (bounded_skipKeywords _ _ hs).bind ?_
      simp only [value_skipKeywords]
      split
      · next rest hj => exact (hnext hj).bind (bounded_pure _)
      · exact bounded_pure none

/-- An item hands on the span of a derived table, and its hints are passed in turns. -/
theorem bounded_tableItem? (hl : l.Sound maxDepth text) (hs : s <:+ l.buffer) (bound : List String) :
    (l.tableItem? bound s).Bounded maxDepth text := by
  unfold tableItem?
  split
  · next inside h =>
      -- What is left gets shorter from part to part and stays an end of the buffer.
      have hinside := accept?_ahead ahead_bytes h
      have hspan := (enclosed_rest_suffix inside).trans (hinside.trans hs)
      have halias := (skipAlias_ahead ahead_bytes (enclosed inside).2).trans hspan
      have hcolumns := (skipSpan_ahead ahead_bytes _).trans halias
      refine (bounded_handOn hl (opened_of_acceptSym? hs h) _ bound).bind ?_
      exact (bounded_skipIndexHints hcolumns).bind (bounded_pure _)
  · split
    · next rest h =>
        have hrest := accept?_ahead ahead_bytes h
        have halias := (skipAlias_ahead ahead_bytes rest).trans (hrest.trans hs)
        exact (bounded_skipIndexHints halias).bind (bounded_pure _)
    · refine (bounded_tableName? bound hs).bind ?_
      rw [value_tableName?]
      split
      · next found rest h =>
          have hrest := (tableName?_ahead ahead_bytes h).trans hs
          have hpartition := (skipPartition_ahead ahead_bytes rest).trans hrest
          have halias := (skipAlias_ahead ahead_bytes _).trans hpartition
          exact (bounded_skipIndexHints halias).bind (bounded_pure _)
      · exact bounded_pure none

/-- A turn of the list passes an item and what leads to the next one. -/
theorem bounded_tableList (hl : l.Sound maxDepth text) (hs : s <:+ l.buffer) (bound : List String) :
    (l.tableList bound s).Bounded maxDepth text := by
  fun_induction tableList l bound s with
  | case1 bound s item h => exact bounded_tableItem? hl hs bound
  | case2 bound s item found rest h next hn =>
      rw [value_tableItem?] at h
      have hrest := (tableItem?_ahead ahead_bytes h).trans hs
      exact List.forall_mem_append.mpr ⟨bounded_tableItem? hl hs bound, bounded_nextTable? hrest⟩
  | case3 bound s item found rest h next start hn more ih =>
      rw [value_tableItem?] at h
      rw [value_nextTable?] at hn
      have hrest := tableItem?_ahead ahead_bytes h
      have hstart := (nextTable?_ahead ahead_bytes hn).trans hrest
      have hlt := Nat.lt_trans (size_lt_of_nextTable? hn) (size_lt_of_tableItem? h)
      have hmore : more.Bounded maxDepth text :=
        (bounded_turn (forward_of_length hs hstart hlt)).bind (ih (hstart.trans hs))
      have hnext : next.Bounded maxDepth text := bounded_nextTable? (hrest.trans hs)
      exact List.forall_mem_append.mpr
        ⟨List.forall_mem_append.mpr ⟨bounded_tableItem? hl hs bound, hnext⟩, hmore⟩

/-! ## Openings -/

/-- A turn passes a definition with its comma. Its body stands behind a `(`, and so it is shorter than the
    buffer. -/
theorem bounded_commonTables (hl : l.Sound maxDepth text) (hs : s <:+ l.buffer) (isRecursive : Bool)
    (bound : List String) : (l.commonTables isRecursive bound s).Bounded maxDepth text := by
  fun_induction commonTables l isRecursive bound s with
  | case1 | case2 | case5 => exact bounded_pure _
  | case3 bound s t rest h hi name early late inside hb held found hc =>
      have hbody := (skipSpan_ahead ahead_bytes rest).trans ((ahead_bytes.next h).trans hs)
      exact bounded_handOn hl (opened_of_openBody hbody hb) _ _
  | case4 bound s t rest h hi name early late inside hb held found next hc more ih =>
      have hbody := (skipSpan_ahead ahead_bytes rest).trans (ahead_bytes.next h)
      have hinside := (openBody_ahead ahead_bytes hb).trans hbody
      have hcomma := accept?_ahead ahead_bytes hc
      have hnext := hcomma.trans ((enclosed_rest_suffix inside).trans hinside)
      -- A name, a parenthesis and a comma have been passed in this turn.
      have hlt : size next < size s := by
        have h1 := size_lt_of_next? h
        have h2 := size_skipSpan_le rest
        have h3 := size_openBody_ok hb
        have h4 := size_afterSpan_le inside
        have h5 := size_lt_of_accept? hc
        omega
      have hheld : held.Bounded maxDepth text :=
        bounded_handOn hl (opened_of_openBody (hbody.trans hs) hb) _ _
      have hmore : more.Bounded maxDepth text :=
        (bounded_turn (forward_of_length hs hnext hlt)).bind (ih (hnext.trans hs))
      exact List.forall_mem_append.mpr ⟨hheld, hmore⟩

/-- The definitions behind `RECURSIVE` or without it. -/
theorem bounded_withClause (hl : l.Sound maxDepth text) (hs : s <:+ l.buffer) (bound : List String) :
    (l.withClause bound s).Bounded maxDepth text := by
  unfold withClause
  split
  · next rest h =>
      have hrest := accept?_ahead ahead_bytes h
      exact bounded_commonTables hl (hrest.trans hs) true bound
  · exact bounded_commonTables hl hs false bound

theorem bounded_startsParenthesizedQuery (hs : s <:+ l.buffer) :
    (l.startsParenthesizedQuery s).Bounded maxDepth text :=
  (bounded_skipWhile _ _ hs).bind (bounded_pure _)

/-- A turn passes the word `WITH` at least, even if no definition follows. -/
theorem bounded_opening (hl : l.Sound maxDepth text) (hs : s <:+ l.buffer) (bound : List String) :
    (l.opening bound s).Bounded maxDepth text := by
  fun_induction opening l bound s with
  | case2 bound s t rest h hk clause more ih =>
      have hvalue : clause.value = SqlTables.withClause l.env bound rest := l.value_withClause bound rest
      have hrest := ahead_bytes.next h
      have hclause := (withClause_ahead ahead_bytes l.env bound rest).trans hrest
      have hlt := Nat.lt_of_le_of_lt (size_withClause_le l.env bound rest) (size_lt_of_next? h)
      rw [← hvalue] at hclause hlt
      have hmore : more.Bounded maxDepth text :=
        (bounded_turn (forward_of_length hs hclause hlt)).bind (ih (hclause.trans hs))
      exact List.forall_mem_append.mpr ⟨bounded_withClause hl (hrest.trans hs) bound, hmore⟩
  | case5 bound s rest h hk =>
      refine (bounded_startsParenthesizedQuery hs).bind ?_
      split
      · exact bounded_pure _
      · exact bounded_pure _
  | case1 | case3 | case4 | case6 => exact bounded_pure _

/-! ## Targets of commands -/

/-- A turn passes an `@`, even if no host follows. -/
theorem bounded_skipHosts (hs : s <:+ l.buffer) : (l.skipHosts s).Bounded maxDepth text := by
  fun_induction skipHosts l s with
  | case1 s rest h ih =>
      have hrest := accept?_ahead ahead_bytes h
      have hhost := (advance_ahead ahead_bytes rest).trans hrest
      have hlt := Nat.lt_of_le_of_lt (size_advance_le rest) (size_lt_of_accept? h)
      exact (bounded_turn (forward_of_length hs hhost hlt)).bind (ih (hhost.trans hs))
  | case2 s h => exact bounded_pure s

/-- The value is passed unseen, and its hosts in turns. -/
theorem bounded_skipOptionValue (hs : s <:+ l.buffer) :
    (l.skipOptionValue s).Bounded maxDepth text := by
  unfold skipOptionValue
  split
  · next rest h =>
      have hrest := accept?_ahead ahead_bytes h
      have hvalue := (advance_ahead ahead_bytes rest).trans (hrest.trans hs)
      exact (bounded_skipHosts hvalue).bind (bounded_pure _)
  · exact bounded_pure s

/-- A turn passes a word, together with its value if it is an option. -/
theorem bounded_ddlObject (kindKnown : Bool) (hs : s <:+ l.buffer) :
    (l.ddlObject kindKnown s).Bounded maxDepth text := by
  fun_induction ddlObject l kindKnown s with
  | case2 kindKnown s t rest h k hk hf ih =>
      have hrest := ahead_bytes.next h
      have hturn := forward_of_length hs hrest (size_lt_of_next? h)
      exact (bounded_turn hturn).bind (ih (hrest.trans hs))
  | case8 kindKnown s t rest h hk hn ho hd option more ih =>
      have hvalue : option.value = SqlTables.skipOptionValue rest := l.value_skipOptionValue rest
      have hrest := ahead_bytes.next h
      have hoption := (skipOptionValue_ahead ahead_bytes rest).trans hrest
      have hlt := Nat.lt_of_le_of_lt (size_skipOptionValue_le rest) (size_lt_of_next? h)
      rw [← hvalue] at hoption hlt
      have hmore : more.Bounded maxDepth text :=
        (bounded_turn (forward_of_length hs hoption hlt)).bind (ih (hoption.trans hs))
      exact List.forall_mem_append.mpr ⟨bounded_skipOptionValue (hrest.trans hs), hmore⟩
  | case1 | case3 | case4 | case5 | case6 | case7 | case9 => exact bounded_pure _

/-- A turn passes a token that is not `ON`. -/
theorem bounded_tableAfterOn (bound : List String) (hs : s <:+ l.buffer) :
    (l.tableAfterOn bound s).Bounded maxDepth text := by
  fun_induction tableAfterOn l bound s with
  | case1 | case2 => exact bounded_pure _
  | case3 s t rest h hsym ho => exact bounded_tableName bound ((ahead_bytes.next h).trans hs)
  | case4 s t rest h hsym ho ih =>
      have hrest := ahead_bytes.next h
      have hturn := forward_of_length hs hrest (size_lt_of_next? h)
      exact (bounded_turn hturn).bind (ih (hrest.trans hs))

/-- A turn passes a name and a comma. -/
theorem bounded_tableNames (bound : List String) (hs : s <:+ l.buffer) :
    (l.tableNames bound s).Bounded maxDepth text := by
  fun_induction tableNames l bound s with
  | case1 | case2 => exact bounded_tableName? bound hs
  | case3 s named found rest h next hc more ih =>
      rw [value_tableName?] at h
      have hrest := tableName?_ahead ahead_bytes h
      have hcomma := accept?_ahead ahead_bytes hc
      have hnext := hcomma.trans hrest
      have hlt := Nat.lt_trans (size_lt_of_accept? hc) (size_lt_of_tableName? h)
      have hmore : more.Bounded maxDepth text :=
        (bounded_turn (forward_of_length hs hnext hlt)).bind (ih (hnext.trans hs))
      exact List.forall_mem_append.mpr ⟨bounded_tableName? bound hs, hmore⟩

/-- What the object decides on starts where its words end. -/
theorem bounded_ddlTargets (bound : List String) (type : StatementType) (hs : s <:+ l.buffer) :
    (l.ddlTargets bound type s).Bounded maxDepth text := by
  have hobject := (ddlObject_ahead ahead_bytes (type == .truncate) s).trans hs
  refine (bounded_ddlObject _ hs).bind ?_
  rw [value_ddlObject]
  split
  · next rest hd =>
      rw [hd] at hobject
      split
      · exact bounded_tableNames bound hobject
      · exact bounded_tableName bound hobject
  · next rest hd =>
      rw [hd] at hobject
      have hname := (skipKeywords_ahead ahead_bytes Keyword.isDdlFiller rest).trans hobject
      have hbehind := (skipName_ahead ahead_bytes _).trans hname
      refine (bounded_skipKeywords _ _ hobject).bind ?_
      rw [value_skipKeywords]
      refine (bounded_skipName hname).bind ?_
      rw [value_skipName]
      exact bounded_tableAfterOn bound hbehind
  · exact bounded_pure _

/-- The tables that a command names itself start where its modifiers end. -/
theorem bounded_targets (hl : l.Sound maxDepth text) (hs : s <:+ l.buffer) (bound : List String)
    (type : StatementType) : (l.targets bound type s).Bounded maxDepth text := by
  have hbehind (q : Keyword → Bool) : TokenSource.skipKeywords q s <:+ l.buffer :=
    (skipKeywords_ahead ahead_bytes q s).trans hs
  cases type with
  | insert | replace =>
      refine (bounded_skipKeywords _ _ hs).bind ?_
      rw [value_skipKeywords]
      exact bounded_tableName bound (hbehind _)
  | update =>
      refine (bounded_skipKeywords _ _ hs).bind ?_
      rw [value_skipKeywords]
      exact bounded_tableList hl (hbehind _) bound
  | alter | drop | create | truncate => exact bounded_ddlTargets bound _ hs
  | select => exact (bounded_skipKeywords _ _ hs).bind (bounded_pure _)
  | delete | unknown => exact bounded_pure _

/-! ## Statements and spans -/

/-- Only a `(` makes a clause hand on a span. -/
theorem bounded_clause (hl : l.Sound maxDepth text) (hs : s <:+ l.buffer) (bound : List String)
    (h : next? s = some (t, rest)) : (l.clause bound t rest).Bounded maxDepth text := by
  have hrest := (ahead_bytes.next h).trans hs
  unfold clause
  split
  · next ht =>
      subst ht
      exact (bounded_handOn hl (opened_of_next? hs h) _ bound).bind (bounded_pure _)
  · split
    · split
      · exact bounded_tableList hl hrest bound
      · split
        · exact (bounded_skipKeywords _ _ hrest).bind (bounded_pure _)
        · split
          · exact bounded_tableList hl hrest bound
          · exact bounded_pure _
    · exact bounded_pure _

/-- A turn passes a token and what it leads to. -/
theorem bounded_body (hl : l.Sound maxDepth text) (hs : s <:+ l.buffer) (isTop : Bool)
    (bound : List String) : (l.body isTop bound s).Bounded maxDepth text := by
  fun_induction body l isTop bound s with
  | case1 | case2 => exact bounded_pure _
  | case3 bound s t rest h ht part more ih =>
      have hvalue : part.value = SqlTables.clause l.env bound t rest := l.value_clause bound t rest
      have hpart := (clause_ahead ahead_bytes l.env bound t rest).trans (ahead_bytes.next h)
      have hlt := Nat.lt_of_le_of_lt (size_clause_le l.env bound t rest) (size_lt_of_next? h)
      rw [← hvalue] at hpart hlt
      have hmore : more.Bounded maxDepth text :=
        (bounded_turn (forward_of_length hs hpart hlt)).bind (ih (hpart.trans hs))
      exact List.forall_mem_append.mpr ⟨bounded_clause hl hs bound h, hmore⟩

/-- A turn passes a token, or a span that is handed on before. -/
theorem bounded_expression (hl : l.Sound maxDepth text) (hs : s <:+ l.buffer) (bound : List String) :
    (l.expression bound s).Bounded maxDepth text := by
  fun_induction expression l bound s with
  | case1 => exact bounded_pure _
  | case2 bound s rest h ih =>
      have hbehind := (enclosed_rest_suffix rest).trans (ahead_bytes.next h)
      have hlt := Nat.lt_of_le_of_lt (size_afterSpan_le rest) (size_lt_of_next? h)
      refine (bounded_handOn hl (opened_of_next? hs h) _ bound).bind ?_
      refine (bounded_turn (forward_of_length hs hbehind hlt)).bind ?_
      exact (ih _ (hbehind.trans hs)).bind (bounded_pure _)
  | case3 bound s t rest h ho ih =>
      have hrest := ahead_bytes.next h
      have hturn := forward_of_length hs hrest (size_lt_of_next? h)
      exact (bounded_turn hturn).bind (ih (hrest.trans hs))

/-- The rest of a statement starts where the tables of its command end, in the same buffer. -/
theorem bounded_afterOpening (hl : l.Sound maxDepth text) (hs : s <:+ l.buffer) (isTop : Bool)
    (bound : List String) (type : StatementType) :
    (l.afterOpening isTop bound type s).Bounded maxDepth text := by
  have hnamed := (targets_ahead ahead_bytes l.env bound type s).trans hs
  refine (bounded_targets hl hs bound type).bind ?_
  rw [value_targets]
  exact (bounded_body hl hnamed isTop _).bind (bounded_pure _)

/-- A query is read in one buffer, from its opening on. -/
theorem bounded_query (hl : l.Sound maxDepth text) (hs : s <:+ l.buffer) (bound : List String) :
    (l.query bound s).Bounded maxDepth text := by
  have hstart := (opening_ahead ahead_bytes l.env bound s).trans hs
  refine (bounded_opening hl hs bound).bind ?_
  rw [value_opening]
  exact (bounded_afterOpening hl hstart false _ _).bind (bounded_pure _)

/-- A span is a buffer of its own, whatever it holds. -/
theorem bounded_span (hl : l.Sound maxDepth text) (hs : s <:+ l.buffer) (place : Place)
    (bound : List String) : (l.span place bound s).Bounded maxDepth text := by
  unfold span
  split
  · exact bounded_query hl hs bound
  · cases place with
    | expression => exact bounded_expression hl hs bound
    | tableList =>
        have hlist := (tableList_ahead ahead_bytes l.env bound s).trans hs
        refine (bounded_tableList hl hs bound).bind ?_
        rw [value_tableList]
        exact (bounded_body hl hlist false _).bind (bounded_pure _)

/-! ## Levels of nesting -/

/-- Each level inside of another one uses up a parenthesis of the statement and a level of the limit. -/
theorem sound_nested (lower usingTables : Bool) {left depth : Nat} {buffer : Bytes}
    (hdepth : depth + left ≤ maxDepth)
    (hparens : depth + buffer.count '('.toUInt8 ≤ text.count '('.toUInt8) :
    (nested lower usingTables left depth buffer).Sound maxDepth text := by
  induction left generalizing depth buffer with
  | zero => exact ⟨hdepth, hparens, fun _ _ _ _ => bounded_pure _⟩
  | succ left ih =>
      refine ⟨Nat.le_of_add_right_le hdepth, hparens, ?_⟩
      intro place bound span hspan
      have hspan' : span.count '('.toUInt8 < buffer.count '('.toUInt8 := hspan
      have hlevel : (nested lower usingTables left (depth + 1) span).Sound maxDepth text :=
        ih (by omega) (by omega)
      have hstep : (Step.enter (depth + 1)).Bounded maxDepth text := ⟨by omega, by omega⟩
      exact (bounded_note hstep).bind (bounded_span hlevel (List.suffix_refl span) place bound)

end Level

/-- The statement is the buffer of depth zero, both in front of its command and behind it. -/
theorem bounded_reading (options : Options) (held : StatementType) (text : Bytes) :
    (reading options held text).Bounded options.maxDepth text := by
  have hlevel (type : StatementType) : (Level.nested options.lowerCaseNames (type == .delete)
      options.maxDepth 0 text).Sound options.maxDepth text :=
    Level.sound_nested _ _ (Nat.le_of_eq (Nat.zero_add _)) (Nat.le_of_eq (Nat.zero_add _))
  refine (Level.bounded_opening (hlevel held) (List.suffix_refl text) []).bind ?_
  rw [Level.value_opening]
  have hrest := opening_ahead ahead_bytes (Level.nested options.lowerCaseNames (held == .delete)
    options.maxDepth 0 text).env [] text
  exact (Level.bounded_afterOpening (hlevel _) hrest true _ _).bind (bounded_pure _)

/-- **Reading comes to an end within its bounds.** The steps are those of the reading itself. Every turn of a
    loop that does not end it leaves the reader, or the copy that looks ahead, at a greater offset within its
    buffer, and a reader is put only where a copy stands further ahead. A span that is handed on is shorter than
    its buffer. No depth exceeds the limit or the number of opening parentheses in the statement, so that depths
    under a limit of 64 bits have 64 bits too. -/
theorem reading_within_bounds (options : Options) (held : StatementType) (text : Bytes)
    (h : options.maxDepth < UInt64.size) :
    (reading options held text).value = extract options held text ∧
      ∀ e ∈ (reading options held text).steps,
        e.Bounded options.maxDepth text ∧ ∀ depth, e = .enter depth → depth < UInt64.size := by
  refine ⟨value_reading options held text, ?_⟩
  intro e he
  have hbounded := bounded_reading options held text e he
  refine ⟨hbounded, ?_⟩
  rintro depth rfl
  exact Nat.lt_of_le_of_lt hbounded.1 h

/-- Under the greatest limit the argument of a function is read at depth one and the query in it at depth two.
    Nothing is deeper, whatever the limit would allow. -/
theorem reading_within_bounds_unlimited :
    let text := ascii "SELECT f((SELECT 1)) FROM (a JOIN b USE INDEX FOR ORDER BY)"
    let read := reading { maxDepth := UInt64.size - 1 } .unknown text
    Step.enter 2 ∈ read.steps ∧ Step.enter 3 ∉ read.steps ∧ UInt64.size - 1 < UInt64.size ∧
      read.value = extract { maxDepth := UInt64.size - 1 } .unknown text ∧
      ∀ e ∈ read.steps,
        e.Bounded (UInt64.size - 1) text ∧ ∀ depth, e = .enter depth → depth < UInt64.size := by
  intro text read
  refine ⟨by decide +kernel, by decide +kernel, by decide, ?_⟩
  exact reading_within_bounds { maxDepth := UInt64.size - 1 } .unknown text (by decide)

end SqlTables
