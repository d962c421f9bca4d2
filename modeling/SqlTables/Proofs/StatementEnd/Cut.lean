import SqlTables.Proofs.StatementEnd.Readers

/-!
# `SqlTables.Proofs.StatementEnd.Cut` — where a `;` is taken for something else

Some readers take a token unseen: the last word of the purpose of an index hint, the value of an option
and a host. Another one looks for `ON` and passes a `;`. A statement that breaks off in front of such a
token lets the reader take the `;` that should end it.

For each of these readers a predicate `Cut…` says that it breaks off so. Either the predicate fails and
the `;` is left, or it holds, and then the reader leaves what stands behind the `;`. What stands there
starts with a `)` in the latter case, which no reader takes for a part of what broke off.

## Contents
- **Index hints** and **lists of tables**: `CutPurpose`, `CutHints`, `CutList`.
- **Schema changes**: `CutHosts`, `CutValue`, `CutObject`, `CutSearch`, `CutDdl`.
- **Statements**: `CutTargets`, `CutBody`.
-/

namespace SqlTables

open TokenSource

variable {s rest z : List Token} {t : Token}

/-- A `;` in front of which something broke off. -/
theorem advance_followed_nil (z : List Token) : advance (followed [] z) = z := rfl

/-- Where a token is left, it is this token that is taken, and not the `;`. -/
theorem advance_followed (hs : s ≠ []) (z : List Token) :
    advance (followed s z) = followed (advance s) z := by
  cases s with
  | nil => exact absurd rfl hs
  | cons t s => rfl

/-! ## Index hints -/

/-- The purpose of an index hint breaks off behind `FOR`, `FOR ORDER` or `FOR GROUP`. -/
inductive CutPurpose : List Token → Prop where
  | purpose {w : Token} : w.isKeyword (· == .FOR) = true → CutPurpose [w]
  | sorting {w v : Token} : w.isKeyword (· == .FOR) = true →
      v.isKeyword (fun k => k == .ORDER || k == .GROUP) = true → CutPurpose [w, v]

/-- A purpose that does not break off ends in front of the `;`. -/
theorem skipHintPurpose_followed (h : ¬ CutPurpose s) (z : List Token) :
    skipHintPurpose (followed s z) = followed (skipHintPurpose s) z := by
  rw [skipHintPurpose, skipHintPurpose, acceptKeyword?_followed]
  cases hf : acceptKeyword? (· == .FOR) s with
  | none => rfl
  | some rest =>
      obtain ⟨w, hw, rfl⟩ := accept?_eq_some_iff.mp hf
      simp only [Option.map_some]
      rw [acceptKeyword?_followed]
      cases hs : acceptKeyword? (fun k => k == .ORDER || k == .GROUP) rest with
      | none =>
          -- The next token is taken unseen, so one must be left in front of the `;`.
          refine advance_followed ?_ z
          rintro rfl
          exact h (.purpose hw)
      | some last =>
          obtain ⟨v, hv, rfl⟩ := accept?_eq_some_iff.mp hs
          refine advance_followed ?_ z
          rintro rfl
          exact h (.sorting hw hv)

/-- One that breaks off has nothing left, and in front of a `;` it takes this as its last word. -/
theorem skipHintPurpose_cut (h : CutPurpose s) :
    skipHintPurpose s = [] ∧ ∀ z, skipHintPurpose (followed s z) = z := by
  cases h with
  | purpose hw =>
      constructor
      · rw [skipHintPurpose, acceptKeyword?_cons hw]
        rfl
      · intro z
        rw [followed_cons, skipHintPurpose, acceptKeyword?_cons hw]
        rfl
  | sorting hw hv =>
      constructor
      · rw [skipHintPurpose, acceptKeyword?_cons hw]
        simp only
        rw [acceptKeyword?_cons hv]
        rfl
      · intro z
        rw [followed_cons, followed_cons, skipHintPurpose, acceptKeyword?_cons hw]
        simp only
        rw [acceptKeyword?_cons hv]
        rfl

/-- An index hint breaks off in its purpose. -/
def CutHint (s : List Token) : Prop :=
  ∃ index rest, acceptKeyword? (fun k => k == .USE || k == .FORCE || k == .IGNORE) s = some index ∧
    acceptKeyword? (fun k => k == .INDEX || k == .KEY) index = some rest ∧ CutPurpose rest

/-- So a hint whose purpose is complete leaves the `;`. -/
theorem indexHint?_followed (h : Closed s) (hc : ¬ CutHint s) (z : List Token) :
    indexHint? (followed s z) = (indexHint? s).map (followed · z) := by
  simp only [indexHint?, Option.bind_eq_bind]
  rw [acceptKeyword?_followed]
  cases ha : acceptKeyword? (fun k => k == .USE || k == .FORCE || k == .IGNORE) s with
  | none => rfl
  | some index =>
      simp only [Option.map_some, Option.bind_some]
      rw [acceptKeyword?_followed]
      cases hi : acceptKeyword? (fun k => k == .INDEX || k == .KEY) index with
      | none => rfl
      | some rest =>
          have hpurpose : ¬ CutPurpose rest := fun hp => hc ⟨index, rest, ha, hi, hp⟩
          have hclosed : Closed (skipHintPurpose rest) := closed_of_suffix
            ((skipHintPurpose_suffix rest).trans ((accept?_suffix hi).trans (accept?_suffix ha))) h
          simp only [Option.map_some, Option.bind_some]
          rw [skipHintPurpose_followed hpurpose, skipSpan_followed hclosed]

/-- A hint that breaks off takes the `;`, and with it a span that starts behind it. -/
theorem indexHint?_cut (hc : CutHint s) :
    indexHint? s = some [] ∧ ∀ z, indexHint? (followed s z) = some (skipSpan z) := by
  obtain ⟨index, rest, ha, hi, hp⟩ := hc
  obtain ⟨hnil, hz⟩ := skipHintPurpose_cut hp
  simp only [indexHint?, Option.bind_eq_bind]
  constructor
  · rw [ha, Option.bind_some, hi, Option.bind_some, hnil]
    rfl
  · intro z
    rw [acceptKeyword?_followed, ha, Option.map_some, Option.bind_some, acceptKeyword?_followed, hi,
      Option.map_some, Option.bind_some, hz]

/-- One of the index hints breaks off. -/
inductive CutHints : List Token → Prop where
  | here {s : List Token} : CutHint s → CutHints s
  | next {s rest : List Token} : indexHint? s = some rest → CutHints rest → CutHints s

theorem not_cutHints_nil : ¬ CutHints [] := by
  rintro (⟨_, _, ha, _⟩ | ⟨hi, _⟩)
  · cases ha
  · cases hi

/-- Hints one after another leave the `;` if none of them breaks off. -/
theorem skipIndexHints_followed (h : Closed s) (hc : ¬ CutHints s) (z : List Token) :
    skipIndexHints (followed s z) = followed (skipIndexHints s) z := by
  fun_induction skipIndexHints s with
  | case1 s rest hi ih =>
      rw [skipIndexHints_eq, indexHint?_followed h (fun hh => hc (.here hh)), hi]
      exact ih (closed_of_suffix (indexHint?_suffix hi) h) fun hr => hc (.next hi hr)
  | case2 s hi =>
      rw [skipIndexHints_eq, indexHint?_followed h (fun hh => hc (.here hh)), hi]
      rfl

theorem skipIndexHints_nil : skipIndexHints ([] : List Token) = [] := by
  rw [skipIndexHints_eq]
  rfl

theorem skipIndexHints_close (z : List Token) :
    skipIndexHints (.sym ')' :: z) = .sym ')' :: z := by
  rw [skipIndexHints_eq]
  rfl

/-- Only the last hint can break off. It takes the `;` and ends in front of the `)`, which starts neither a
    span nor a further hint. -/
theorem skipIndexHints_cut (hc : CutHints s) (h : Closed s) (z : List Token) :
    skipIndexHints s = [] ∧ skipIndexHints (followed s (.sym ')' :: z)) = .sym ')' :: z := by
  induction hc with
  | @here s hh =>
      obtain ⟨hnil, hz⟩ := indexHint?_cut hh
      rw [skipIndexHints_eq s, skipIndexHints_eq (followed s _), hnil, hz]
      exact ⟨skipIndexHints_nil, skipIndexHints_close z⟩
  | @next s rest hi hr ih =>
      -- The first hint ends, for a hint that breaks off leaves nothing for a next one.
      have hhint : ¬ CutHint s := by
        intro hh
        cases hi.symm.trans (indexHint?_cut hh).1
        exact not_cutHints_nil hr
      rw [skipIndexHints_eq s, skipIndexHints_eq (followed s _), indexHint?_followed h hhint, hi]
      exact ih (closed_of_suffix (indexHint?_suffix hi) h)

/-! ## Lists of tables -/

variable {env : Env (List Token)} {bound : List String}

/-- An item of a list up to its index hints. -/
def itemStart? (env : Env (List Token)) (bound : List String) (s : List Token) :
    Option (Findings × List Token) :=
  match acceptSym? '(' s with
  | some inside =>
      some (env.search .tableList bound (enclosed inside).1,
        skipSpan (skipAlias (enclosed inside).2))
  | none =>
      match acceptKeyword? (· == .DUAL) s with
      | some rest => some (∅, skipAlias rest)
      | none => (tableName? env bound s).map fun x => (x.1, skipAlias (skipPartition x.2))

/-- Only the hints of an item can break off, so it is taken apart in front of them. -/
theorem tableItem?_eq_itemStart? (env : Env (List Token)) (bound : List String) (s : List Token) :
    tableItem? env bound s = (itemStart? env bound s).map fun x => (x.1, skipIndexHints x.2) := by
  unfold tableItem? itemStart?
  cases acceptSym? '(' s with
  | some inside => rfl
  | none =>
      cases acceptKeyword? (· == .DUAL) s with
      | some rest => rfl
      | none => cases tableName? env bound s <;> rfl

/-- Up to its hints an item is read in the same way in front of a mark. -/
theorem itemStart?_before (env : Env (List Token)) (bound : List String)
    (hz : Grammar.Starts IsMark z) (h : Closed s) (ha : Apart s z) :
    itemStart? env bound (s ++ z) = (itemStart? env bound s).map (before z) := by
  rw [itemStart?, itemStart?, acceptSym?_before (by decide) hz]
  -- A derived table, `DUAL` and a named table, each with all that may follow it.
  cases hp : acceptSym? '(' s with
  | some inside =>
      have hinside := closed_inside h hp
      have hafter : Closed (skipAlias (enclosed inside).2) := closed_of_suffix
        ((skipAlias_suffix _).trans (afterSpan_suffix inside)) (closed_tail hinside)
      simp only [Option.map_some]
      rw [enclosed_before hinside]
      simp only [before]
      rw [skipAlias_before hz, skipSpan_before hz hafter]
  | none =>
      simp only [Option.map_none]
      rw [acceptKeyword?_before rfl hz]
      cases hd : acceptKeyword? (· == .DUAL) s with
      | some rest =>
          simp only [Option.map_some]
          rw [skipAlias_before hz]
          rfl
      | none =>
          simp only [Option.map_none]
          rw [tableName?_before env bound hz ha]
          cases ht : tableName? env bound s with
          | none => rfl
          | some x =>
              have hafter : Closed x.2 := closed_of_suffix (suffix_of_reads (tableName?_reads ht)) h
              simp only [Option.map_some, before]
              rw [skipPartition_before hz hafter, skipAlias_before hz]

theorem itemStart?_followed (env : Env (List Token)) (bound : List String) (h : Closed s)
    (z : List Token) :
    itemStart? env bound (followed s z) = (itemStart? env bound s).map (leaving z) :=
  itemStart?_before env bound (starts_semicolon z) h (apart_semicolon s z)

/-- It leaves an end of the tokens. -/
theorem itemStart?_suffix {x : Findings × List Token} (h : itemStart? env bound s = some x) :
    x.2 <:+ s := by
  unfold itemStart? at h
  split at h
  · next inside hi =>
      cases h
      exact (skipSpan_suffix _).trans
        ((skipAlias_suffix _).trans ((afterSpan_suffix inside).trans (accept?_suffix hi)))
  · split at h
    · next hd =>
        cases h
        exact (skipAlias_suffix _).trans (accept?_suffix hd)
    · obtain ⟨y, hy, rfl⟩ := Option.map_eq_some_iff.mp h
      exact (skipAlias_suffix _).trans
        ((skipPartition_suffix _).trans (suffix_of_reads (tableName?_reads hy)))

/-- The hints of an item break off. -/
def CutItem (env : Env (List Token)) (bound : List String) (s : List Token) : Prop :=
  ∃ x, itemStart? env bound s = some x ∧ CutHints x.2

/-- An item whose hints are complete leaves the `;`. -/
theorem tableItem?_followed (h : Closed s) (hc : ¬ CutItem env bound s) (z : List Token) :
    tableItem? env bound (followed s z) = (tableItem? env bound s).map (leaving z) := by
  rw [tableItem?_eq_itemStart?, tableItem?_eq_itemStart?, itemStart?_followed env bound h]
  cases hx : itemStart? env bound s with
  | none => rfl
  | some x =>
      have hclosed : Closed x.2 := closed_of_suffix (itemStart?_suffix hx) h
      simp only [Option.map_some, leaving]
      rw [skipIndexHints_followed hclosed fun hh => hc ⟨x, hx, hh⟩]

/-- One whose hint breaks off finds the same table and takes the `;`. -/
theorem tableItem?_cut (hc : CutItem env bound s) (h : Closed s) (z : List Token) :
    ∃ found, tableItem? env bound s = some (found, []) ∧
      tableItem? env bound (followed s (.sym ')' :: z)) = some (found, .sym ')' :: z) := by
  obtain ⟨x, hx, hh⟩ := hc
  have hclosed : Closed x.2 := closed_of_suffix (itemStart?_suffix hx) h
  obtain ⟨hnil, hz⟩ := skipIndexHints_cut hh hclosed z
  refine ⟨x.1, ?_, ?_⟩
  · rw [tableItem?_eq_itemStart?, hx, Option.map_some, hnil]
  · rw [tableItem?_eq_itemStart?, itemStart?_followed env bound h, hx]
    simp only [Option.map_some, leaving]
    rw [hz]

theorem skipKeywords_nil (p : Keyword → Bool) : skipKeywords p ([] : List Token) = [] := by
  rw [skipKeywords, skipWhile_eq]
  rfl

theorem skipKeywords_close (p : Keyword → Bool) (z : List Token) :
    skipKeywords p (.sym ')' :: z) = .sym ')' :: z := by
  rw [skipKeywords, skipWhile_eq]
  rfl

theorem nextTable?_nil : nextTable? ([] : List Token) = none := by
  show acceptKeyword? _ (skipKeywords _ []) = none
  rw [skipKeywords_nil]
  rfl

theorem nextTable?_close (z : List Token) : nextTable? (.sym ')' :: z) = none := by
  show acceptKeyword? _ (skipKeywords _ (.sym ')' :: z)) = none
  rw [skipKeywords_close]
  rfl

/-- The hints of one of the items of a list break off. -/
inductive CutList (env : Env (List Token)) : List String → List Token → Prop where
  | item {bound : List String} {s : List Token} : CutItem env bound s → CutList env bound s
  | next {bound : List String} {s rest next : List Token} {found : Findings} :
      tableItem? env bound s = some (found, rest) → nextTable? rest = some next →
      CutList env (bound ++ found.bound) next → CutList env bound s

/-- A list of tables in which no hint breaks off leaves the `;`. -/
theorem tableList_followed (henv : env.Faithful) (h : Closed s) (hc : ¬ CutList env bound s)
    (z : List Token) : tableList env bound (followed s z) = leaving z (tableList env bound s) := by
  fun_induction tableList env bound s with
  | case1 bound s hi =>
      rw [tableList_eq, tableItem?_followed h fun hh => hc (.item hh), hi]
      rfl
  | case2 bound s found rest hi hn =>
      rw [tableList_eq, tableItem?_followed h fun hh => hc (.item hh), hi]
      simp only [Option.map_some, leaving]
      rw [nextTable?_followed, hn]
      rfl
  | case3 bound s found rest hi next hn more ih =>
      have hnext : Closed next := closed_of_suffix
        ((nextTable?_suffix hn).trans (suffix_of_reads (tableItem?_reads henv hi))) h
      rw [tableList_eq, tableItem?_followed h fun hh => hc (.item hh), hi]
      simp only [Option.map_some, leaving]
      rw [nextTable?_followed, hn]
      exact congrArg (fun more => (found ++ more.1, more.2)) (ih hnext fun hh => hc (.next hi hn hh))

/-- If one does, it is that of the last table. The list finds the same tables and goes past the `;`, but not
    past the `)`. -/
theorem tableList_cut (henv : env.Faithful) (hc : CutList env bound s) (h : Closed s)
    (z : List Token) :
    ∃ found, tableList env bound s = (found, []) ∧
      tableList env bound (followed s (.sym ')' :: z)) = (found, .sym ')' :: z) := by
  induction hc with
  | @item bound s hi =>
      obtain ⟨found, hs, hz⟩ := tableItem?_cut hi h z
      refine ⟨found, ?_, ?_⟩
      · rw [tableList_eq, hs]
        simp only
        rw [nextTable?_nil]
      · rw [tableList_eq, hz]
        simp only
        rw [nextTable?_close]
  | @next bound s rest next found hi hn hr ih =>
      -- The first item ends, for an item that breaks off has no separator behind it.
      have hitem : ¬ CutItem env bound s := by
        intro hh
        obtain ⟨_, hs, _⟩ := tableItem?_cut hh h []
        cases hi.symm.trans hs
        cases nextTable?_nil.symm.trans hn
      have hnext : Closed next := closed_of_suffix
        ((nextTable?_suffix hn).trans (suffix_of_reads (tableItem?_reads henv hi))) h
      obtain ⟨more, hs, hz⟩ := ih hnext
      refine ⟨found ++ more, ?_, ?_⟩
      · rw [tableList_eq, hi]
        simp only
        rw [hn]
        simp only
        rw [hs]
      · rw [tableList_eq, tableItem?_followed h hitem, hi]
        simp only [Option.map_some, leaving]
        rw [nextTable?_followed, hn]
        simp only [Option.map_some]
        rw [hz]

/-! ## Options of schema changes -/

/-- The hosts of a user break off behind an `@`. -/
inductive CutHosts : List Token → Prop where
  | here {s : List Token} : acceptSym? '@' s = some [] → CutHosts s
  | next {s rest : List Token} : acceptSym? '@' s = some rest → CutHosts (advance rest) → CutHosts s

theorem not_cutHosts_nil : ¬ CutHosts [] := by
  rintro (h | ⟨h, _⟩)
  · cases h
  · cases h

theorem skipHosts_close (z : List Token) : skipHosts (.sym ')' :: z) = .sym ')' :: z := by
  rw [skipHosts_eq]
  rfl

theorem skipHosts_nil : skipHosts ([] : List Token) = [] := by
  rw [skipHosts_eq]
  rfl

/-- Hosts leave the `;` unless an `@` is the last token. -/
theorem skipHosts_followed (hc : ¬ CutHosts s) (z : List Token) :
    skipHosts (followed s z) = followed (skipHosts s) z := by
  fun_induction skipHosts s with
  | case1 s rest h ih =>
      have hrest : rest ≠ [] := by
        rintro rfl
        exact hc (.here h)
      rw [skipHosts_eq, acceptSym?_followed rfl, h]
      simp only [Option.map_some]
      rw [advance_followed hrest]
      exact ih fun hr => hc (.next h hr)
  | case2 s h =>
      rw [skipHosts_eq, acceptSym?_followed rfl, h]
      rfl

/-- Behind such an `@` the `;` is taken for the host. -/
theorem skipHosts_cut (hc : CutHosts s) (z : List Token) :
    skipHosts s = [] ∧ skipHosts (followed s (.sym ')' :: z)) = .sym ')' :: z := by
  induction hc with
  | @here s h =>
      rw [skipHosts_eq s, skipHosts_eq (followed s _), acceptSym?_followed rfl, h]
      exact ⟨skipHosts_nil, skipHosts_close z⟩
  | @next s rest h hr ih =>
      have hrest : rest ≠ [] := by
        rintro rfl
        exact not_cutHosts_nil hr
      rw [skipHosts_eq s, skipHosts_eq (followed s _), acceptSym?_followed rfl, h]
      simp only [Option.map_some]
      rw [advance_followed hrest]
      exact ih

/-- The value of an option breaks off behind the `=` or in its hosts. -/
def CutValue (s : List Token) : Prop :=
  ∃ value, acceptSym? '=' s = some value ∧ (value = [] ∨ CutHosts (advance value))

/-- A value that does not break off ends in front of the `;`. -/
theorem skipOptionValue_followed (h : Closed s) (hc : ¬ CutValue s) (z : List Token) :
    skipOptionValue (followed s z) = followed (skipOptionValue s) z := by
  rw [skipOptionValue, skipOptionValue, acceptSym?_followed rfl]
  cases he : acceptSym? '=' s with
  | none => rfl
  | some value =>
      have hvalue : value ≠ [] := fun hn => hc ⟨value, he, Or.inl hn⟩
      have hhosts : ¬ CutHosts (advance value) := fun hh => hc ⟨value, he, Or.inr hh⟩
      have hclosed : Closed (skipHosts (advance value)) := closed_of_suffix
        ((skipHosts_suffix _).trans ((advance_suffix value).trans (accept?_suffix he))) h
      simp only [Option.map_some]
      rw [advance_followed hvalue, skipHosts_followed hhosts, skipSpan_followed hclosed]

/-- A value that breaks off takes the `;`, either as itself or as its host. -/
theorem skipOptionValue_cut (hc : CutValue s) (z : List Token) :
    skipOptionValue s = [] ∧ skipOptionValue (followed s (.sym ')' :: z)) = .sym ')' :: z := by
  obtain ⟨value, he, rfl | hh⟩ := hc
  · rw [skipOptionValue, skipOptionValue, acceptSym?_followed rfl, he]
    simp only [Option.map_some]
    rw [advance_followed_nil, skipHosts_close]
    have hnil : skipHosts (advance ([] : List Token)) = [] := skipHosts_nil
    rw [hnil]
    exact ⟨rfl, rfl⟩
  · have hvalue : value ≠ [] := by
      rintro rfl
      exact not_cutHosts_nil hh
    obtain ⟨hnil, hz⟩ := skipHosts_cut hh z
    rw [skipOptionValue, skipOptionValue, acceptSym?_followed rfl, he]
    simp only [Option.map_some]
    rw [advance_followed hvalue, hnil, hz]
    exact ⟨rfl, rfl⟩

/-- An option in front of the object of a schema change breaks off. `kindKnown` is the state in which the
    object is looked for. -/
inductive CutObject : Bool → List Token → Prop where
  | filler {kindKnown : Bool} {t : Token} {rest : List Token} {k : Keyword} :
      t.keyword? = some k → k.isDdlFiller = true →
      CutObject (kindKnown || k == .TABLE || k == .VIEW) rest → CutObject kindKnown (t :: rest)
  | value {t : Token} {rest : List Token} : t.keyword? = none → t.isWordOf otherObjects = false →
      t.isWordOf ddlOptions = true → CutValue rest → CutObject false (t :: rest)
  | option {t : Token} {rest : List Token} : t.keyword? = none → t.isWordOf otherObjects = false →
      t.isWordOf ddlOptions = true → CutObject false (skipOptionValue rest) →
      CutObject false (t :: rest)

/-- A word that says nothing about the object is passed over. `TABLE` and `VIEW` tell its kind. -/
theorem ddlObject_filler {t : Token} {k : Keyword} (hk : t.keyword? = some k)
    (hf : k.isDdlFiller = true) (kindKnown : Bool) (rest : List Token) :
    ddlObject kindKnown (t :: rest) = ddlObject (kindKnown || k == .TABLE || k == .VIEW) rest := by
  rw [ddlObject_eq, next?_cons]
  simp only [hk, hf, if_true]

/-- An option is passed over together with its value, as long as the kind of the object is open. -/
theorem ddlObject_option {t : Token} (hk : t.keyword? = none)
    (ho : t.isWordOf otherObjects = false) (hd : t.isWordOf ddlOptions = true)
    (rest : List Token) :
    ddlObject false (t :: rest) = ddlObject false (skipOptionValue rest) := by
  rw [ddlObject_eq, next?_cons]
  simp only [hk, ho, hd, if_true, Bool.false_eq_true, if_false]

theorem ddlObject_nil (kindKnown : Bool) : ddlObject kindKnown ([] : List Token) = (.table, []) := by
  rw [ddlObject_eq]
  rfl

theorem ddlObject_close (kindKnown : Bool) (z : List Token) :
    ddlObject kindKnown (.sym ')' :: z) = (.table, .sym ')' :: z) := by
  rw [ddlObject_eq]
  cases kindKnown <;> rfl

theorem not_cutObject_nil (kindKnown : Bool) : ¬ CutObject kindKnown [] := by
  rintro ⟨⟩

/-- Where the value of the last option breaks off, it takes the `;`, and the object is looked for behind it. -/
theorem ddlObject_cut {kindKnown : Bool} (hc : CutObject kindKnown s) (h : Closed s)
    (z : List Token) :
    ddlObject kindKnown s = (.table, []) ∧
      ddlObject kindKnown (followed s (.sym ')' :: z)) = (.table, .sym ')' :: z) := by
  induction hc with
  | @filler kindKnown t rest k hk hf hr ih =>
      rw [followed_cons, ddlObject_filler hk hf, ddlObject_filler hk hf]
      exact ih (closed_tail h)
  | @value t rest hk ho hd hv =>
      obtain ⟨hnil, hz⟩ := skipOptionValue_cut hv z
      rw [followed_cons, ddlObject_option hk ho hd, ddlObject_option hk ho hd, hnil, hz]
      exact ⟨ddlObject_nil false, ddlObject_close false z⟩
  | @option t rest hk ho hd hr ih =>
      -- Behind a value that breaks off there is no further option.
      have hvalue : ¬ CutValue rest := by
        intro hv
        rw [(skipOptionValue_cut hv []).1] at hr
        exact not_cutObject_nil false hr
      rw [followed_cons, ddlObject_option hk ho hd, ddlObject_option hk ho hd,
        skipOptionValue_followed (closed_tail h) hvalue]
      exact ih (closed_of_suffix (skipOptionValue_suffix rest) (closed_tail h))

/-- Where no value breaks off, the words in front of the object leave the `;`. -/
theorem ddlObject_followed {kindKnown : Bool} (h : Closed s) (hc : ¬ CutObject kindKnown s)
    (z : List Token) : ddlObject kindKnown (followed s z) = leaving z (ddlObject kindKnown s) := by
  -- Only the value of an option is taken unseen; in every other case the token itself decides.
  fun_induction ddlObject kindKnown s with
  | case1 kindKnown s hn =>
      obtain rfl := next?_eq_none_iff.mp hn
      rw [ddlObject_eq, followed_nil, next?_cons]
      cases kindKnown <;> rfl
  | case2 kindKnown s t rest hn k hk hf ih =>
      obtain rfl := next?_eq_some_iff.mp hn
      rw [followed_cons, ddlObject_filler hk hf]
      exact ih (closed_tail h) fun hr => hc (.filler hk hf hr)
  | case3 kindKnown s t rest hn k hk hf ha =>
      obtain rfl := next?_eq_some_iff.mp hn
      rw [ddlObject_eq, followed_cons, next?_cons]
      simp only [hk, hf, ha]
      rfl
  | case4 kindKnown s t rest hn k hk hf ha ho =>
      obtain rfl := next?_eq_some_iff.mp hn
      rw [ddlObject_eq, followed_cons, next?_cons]
      simp only [hk, hf, ha, ho]
      rfl
  | case5 kindKnown s t rest hn k hk hf ha ho =>
      obtain rfl := next?_eq_some_iff.mp hn
      rw [ddlObject_eq, followed_cons, next?_cons]
      simp only [hk, hf, ha, ho]
      rfl
  | case6 s t rest hn hk =>
      obtain rfl := next?_eq_some_iff.mp hn
      rw [ddlObject_eq, followed_cons, next?_cons]
      simp only [hk]
      rfl
  | case7 kindKnown s t rest hn hk hknown ho =>
      obtain rfl := next?_eq_some_iff.mp hn
      rw [ddlObject_eq, followed_cons, next?_cons]
      simp only [hk, hknown, ho]
      rfl
  | case8 kindKnown s t rest hn hk hknown ho hd ih =>
      obtain rfl := next?_eq_some_iff.mp hn
      obtain rfl : kindKnown = false := Bool.eq_false_iff.mpr hknown
      have hother : t.isWordOf otherObjects = false := Bool.eq_false_iff.mpr ho
      have hvalue : ¬ CutValue rest := fun hv => hc (.value hk hother hd hv)
      rw [followed_cons, ddlObject_option hk hother hd,
        skipOptionValue_followed (closed_tail h) hvalue]
      exact ih (closed_of_suffix (skipOptionValue_suffix rest) (closed_tail h))
        fun hr => hc (.option hk hother hd hr)
  | case9 kindKnown s t rest hn hk hknown ho hd =>
      obtain rfl := next?_eq_some_iff.mp hn
      rw [ddlObject_eq, followed_cons, next?_cons]
      simp only [hk, hknown, ho, hd]
      rfl

/-! ## The tables of a schema change -/

/-- Neither an `ON` nor a `;` comes, so that the search for the table of an index or trigger breaks
    off. -/
def CutSearch (s : List Token) : Prop := ∀ t ∈ s, t ≠ .sym ';' ∧ t.isKeyword (· == .ON) = false

/-- A search that meets neither `ON` nor a `;` finds nothing, and takes the `;` behind it as its end. -/
theorem tableAfterOn_cut (env : Env (List Token)) (bound : List String) (hc : CutSearch s)
    (z : List Token) :
    tableAfterOn env bound s = (∅, []) ∧ tableAfterOn env bound (followed s z) = (∅, z) := by
  induction s with
  | nil =>
      rw [tableAfterOn_eq, tableAfterOn_eq env bound (followed [] z), followed_nil, next?_cons]
      exact ⟨rfl, if_pos rfl⟩
  | cons t s ih =>
      obtain ⟨⟨hsemi, hon⟩, htail⟩ := List.forall_mem_cons.mp hc
      rw [tableAfterOn_eq, tableAfterOn_eq env bound (followed (t :: s) z), followed_cons, next?_cons,
        next?_cons]
      simp only
      rw [if_neg hsemi, if_neg hsemi, hon, if_neg Bool.false_ne_true, if_neg Bool.false_ne_true]
      exact ih htail

/-- A search that comes to its end before leaves the `;`. -/
theorem tableAfterOn_followed (env : Env (List Token)) (bound : List String) (hc : ¬ CutSearch s)
    (z : List Token) :
    tableAfterOn env bound (followed s z) = leaving z (tableAfterOn env bound s) := by
  fun_induction tableAfterOn env bound s with
  | case1 s hn =>
      obtain rfl := next?_eq_none_iff.mp hn
      -- At the end no `ON` and no semicolon has come: this search is cut.
      refine absurd ?_ hc
      rintro t ⟨⟩
  | case2 s rest hn =>
      obtain rfl := next?_eq_some_iff.mp hn
      rw [tableAfterOn_eq, followed_cons, next?_cons]
      exact if_pos rfl
  | case3 s t rest hn hs ho =>
      obtain rfl := next?_eq_some_iff.mp hn
      rw [tableAfterOn_eq, followed_cons, next?_cons]
      simp only
      rw [if_neg hs, if_pos ho, tableName_followed]
  | case4 s t rest hn hs ho ih =>
      obtain rfl := next?_eq_some_iff.mp hn
      rw [tableAfterOn_eq, followed_cons, next?_cons]
      simp only
      rw [if_neg hs, if_neg ho]
      refine ih fun hr => hc ?_
      exact List.forall_mem_cons.mpr ⟨⟨hs, Bool.eq_false_iff.mpr ho⟩, hr⟩

/-- The tokens in which the table of an index or trigger is looked for. -/
def attachedRest (s : List Token) : List Token := skipName (skipKeywords Keyword.isDdlFiller s)

/-- A schema change breaks off in an option, or before the `ON` of an index or trigger. -/
def CutDdl (type : StatementType) (s : List Token) : Prop :=
  CutObject (type == .truncate) s ∨
    ∃ rest, ddlObject (type == .truncate) s = (.attached, rest) ∧ CutSearch (attachedRest rest)

theorem tableName_nil (env : Env (List Token)) (bound : List String) :
    tableName env bound ([] : List Token) = (∅, []) := rfl

theorem tableName_close (env : Env (List Token)) (bound : List String) (z : List Token) :
    tableName env bound (.sym ')' :: z) = (∅, .sym ')' :: z) := rfl

theorem tableNames_nil (env : Env (List Token)) (bound : List String) :
    tableNames env bound ([] : List Token) = (∅, []) := by
  rw [tableNames_eq]
  rfl

theorem tableNames_close (env : Env (List Token)) (bound : List String) (z : List Token) :
    tableNames env bound (.sym ')' :: z) = (∅, .sym ')' :: z) := by
  rw [tableNames_eq]
  rfl

/-- The table of a schema change that does not break off stands in front of the `;`. -/
theorem ddlTargets_followed (env : Env (List Token)) (bound : List String) {type : StatementType}
    (h : Closed s) (hc : ¬ CutDdl type s) (z : List Token) :
    ddlTargets env bound type (followed s z) = leaving z (ddlTargets env bound type s) := by
  have hobject := ddlObject_followed h (fun hh => hc (Or.inl hh)) z
  rw [ddlTargets, ddlTargets, hobject]
  cases hd : ddlObject (type == .truncate) s with
  | mk object rest =>
      cases object with
      | table =>
          simp only [leaving]
          split
          · exact tableNames_followed env bound rest z
          · exact tableName_followed env bound rest z
      | attached =>
          simp only [leaving]
          rw [skipKeywords_followed, skipName_followed]
          exact tableAfterOn_followed env bound (fun hh => hc (Or.inr ⟨rest, hd, hh⟩)) z
      | other => rfl

/-- A schema change that breaks off names no table and goes past the `;`. -/
theorem ddlTargets_cut (env : Env (List Token)) (bound : List String) {type : StatementType}
    (h : Closed s) (hc : CutDdl type s) (z : List Token) :
    ddlTargets env bound type s = (∅, []) ∧
      ddlTargets env bound type (followed s (.sym ')' :: z)) = (∅, .sym ')' :: z) := by
  -- Whatever broke off, a `)` is the first token behind the `;`, and no name starts with one.
  by_cases hobject : CutObject (type == .truncate) s
  · obtain ⟨hnil, hz⟩ := ddlObject_cut hobject h z
    rw [ddlTargets, ddlTargets, hnil, hz]
    simp only
    split
    · exact ⟨tableNames_nil env bound, tableNames_close env bound z⟩
    · exact ⟨tableName_nil env bound, tableName_close env bound z⟩
  · obtain ⟨rest, hd, hsearch⟩ := hc.resolve_left hobject
    obtain ⟨hnil, hz⟩ := tableAfterOn_cut env bound hsearch (.sym ')' :: z)
    rw [ddlTargets, ddlTargets, ddlObject_followed h hobject, hd]
    simp only [leaving]
    rw [skipKeywords_followed, skipName_followed]
    exact ⟨hnil, hz⟩

/-! ## The tables of a command -/

/-- The tables of a command break off. -/
def CutTargets (env : Env (List Token)) (bound : List String) (type : StatementType)
    (s : List Token) : Prop :=
  match type with
  | .update => CutList env bound (skipKeywords Keyword.isUpdateModifier s)
  | .alter | .drop | .create | .truncate => CutDdl type s
  | .insert | .replace | .select | .delete | .unknown => False

/-- The tables of a command that does not break off stand in front of the `;`. -/
theorem targets_followed (henv : env.Faithful) {type : StatementType} (h : Closed s)
    (hc : ¬ CutTargets env bound type s) (z : List Token) :
    targets env bound type (followed s z) = leaving z (targets env bound type s) := by
  cases type with
  | insert | replace =>
      rw [targets, targets, skipKeywords_followed]
      exact tableName_followed env bound _ z
  | update =>
      rw [targets, targets, skipKeywords_followed]
      exact tableList_followed henv (closed_of_suffix (skipKeywords_suffix _ s) h) hc z
  | alter | drop | create | truncate => exact ddlTargets_followed env bound h hc z
  | select =>
      rw [targets, targets, skipKeywords_followed]
      rfl
  | delete | unknown => rfl

/-- A command that breaks off names the same tables in front of a `;` and goes past it. -/
theorem targets_cut (henv : env.Faithful) {type : StatementType} (h : Closed s)
    (hc : CutTargets env bound type s) (z : List Token) :
    ∃ found, targets env bound type s = (found, []) ∧
      targets env bound type (followed s (.sym ')' :: z)) = (found, .sym ')' :: z) := by
  cases type with
  | update =>
      rw [targets, targets, skipKeywords_followed]
      exact tableList_cut henv hc (closed_of_suffix (skipKeywords_suffix _ s) h) z
  | alter | drop | create | truncate => exact ⟨∅, ddlTargets_cut env bound h hc z⟩
  | insert | replace | select | delete | unknown => exact hc.elim

/-! ## The rest of a statement -/

/-- A word that starts a list of tables. -/
def startsList (env : Env (List Token)) (t : Token) (rest : List Token) : Bool :=
  t.isKeyword fun k =>
    k == .FROM || k.isJoin || k == .USING && env.usingTables && (acceptSym? '(' rest).isNone

/-- What starts a list of tables is read as one. -/
theorem clause_of_startsList (hl : startsList env t rest = true) :
    clause env bound t rest = tableList env bound rest := by
  obtain ⟨k, hk, hl⟩ := (Option.any_eq_true _ _).mp hl
  have ho : t ≠ .sym '(' := by
    rintro rfl
    cases hk
  rw [clause, if_neg ho, hk]
  simp only
  split
  · rfl
  · next hfrom =>
      rw [Bool.eq_false_iff.mpr hfrom, Bool.false_or] at hl
      have hselect : ¬ (k == .SELECT) = true := by
        intro hs
        rw [beq_iff_eq.mp hs] at hl
        cases hl
      rw [if_neg hselect, if_pos hl]

theorem startsList_before (hz : Grammar.Starts IsMark z) (env : Env (List Token)) (t : Token)
    (rest : List Token) : startsList env t (rest ++ z) = startsList env t rest := by
  rw [startsList, startsList, acceptSym?_before (by decide) hz, Option.isNone_map]

/-- A token that starts no list takes nothing unseen. -/
theorem clause_before (hz : Grammar.Starts IsMark z) (h : Closed (t :: rest))
    (hl : startsList env t rest = false) :
    clause env bound t (rest ++ z) = before z (clause env bound t rest) := by
  unfold clause
  split
  · next ho =>
      subst ho
      rw [enclosed_before h]
      rfl
  · cases hk : t.keyword? with
    | none => rfl
    | some k =>
        rw [startsList, Token.isKeyword_of_keyword? hk, Bool.or_eq_false_iff] at hl
        simp only
        rw [acceptSym?_before (by decide) hz, Option.isNone_map, hl.1, hl.2,
          if_neg Bool.false_ne_true, if_neg Bool.false_ne_true, if_neg Bool.false_ne_true,
          if_neg Bool.false_ne_true, skipKeywords_before rfl hz]
        split <;> rfl

theorem clause_followed (h : Closed (t :: rest)) (hl : startsList env t rest = false)
    (z : List Token) :
    clause env bound t (followed rest z) = leaving z (clause env bound t rest) :=
  clause_before (starts_semicolon z) h hl

/-- A list of tables in the rest of a statement breaks off. -/
inductive CutBody (env : Env (List Token)) : List String → List Token → Prop where
  | list {bound : List String} {t : Token} {rest : List Token} : startsList env t rest = true →
      CutList env bound rest → CutBody env bound (t :: rest)
  | next {bound : List String} {t : Token} {rest : List Token} : t ≠ .sym ';' →
      CutBody env (bound ++ (clause env bound t rest).1.bound) (clause env bound t rest).2 →
      CutBody env bound (t :: rest)

theorem not_cutBody_nil (env : Env (List Token)) (bound : List String) : ¬ CutBody env bound [] := by
  rintro ⟨⟩

/-- A token behind which nothing breaks off. -/
theorem clause_followed_of_not_cut (henv : env.Faithful) (h : Closed (t :: rest))
    (hc : ¬ (startsList env t rest = true ∧ CutList env bound rest)) (z : List Token) :
    clause env bound t (followed rest z) = leaving z (clause env bound t rest) := by
  cases hl : startsList env t rest with
  | false => exact clause_followed h hl z
  | true =>
      have hl' : startsList env t (followed rest z) = true :=
        (startsList_before (starts_semicolon z) env t rest).trans hl
      rw [clause_of_startsList hl, clause_of_startsList hl']
      exact tableList_followed henv (closed_tail h) (fun hh => hc ⟨hl, hh⟩) z

/-- Outside of parentheses a token that is no `;` is read with what it leads to, and the rest behind that. -/
theorem body_top (ht : t ≠ .sym ';') (env : Env (List Token)) (bound : List String)
    (rest : List Token) :
    body env true bound (t :: rest) = (clause env bound t rest).1 ++
      body env true (bound ++ (clause env bound t rest).1.bound) (clause env bound t rest).2 := by
  rw [body_eq, next?_cons]
  exact if_neg fun hh => ht hh.2

theorem body_semicolon (env : Env (List Token)) (bound : List String) (z : List Token) :
    body env true bound (.sym ';' :: z) = ∅ := by
  rw [body_eq, next?_cons]
  exact if_pos ⟨rfl, rfl⟩

theorem body_end (env : Env (List Token)) (bound : List String) :
    body env true bound ([] : List Token) = ∅ := by
  rw [body_eq]
  rfl

/-- A rest of a statement that does not break off ends with the `;`. -/
theorem body_followed (henv : env.Faithful) (h : Closed s) (hc : ¬ CutBody env bound s)
    (z : List Token) : body env true bound (followed s z) = body env true bound s := by
  fun_induction body env true bound s with
  | case1 bound s hn =>
      obtain rfl := next?_eq_none_iff.mp hn
      exact body_semicolon env bound z
  | case2 bound s t rest hn hs =>
      obtain rfl := next?_eq_some_iff.mp hn
      rw [hs.2, followed_cons]
      exact body_semicolon env bound _
  | case3 bound s t rest hn hs part ih =>
      obtain rfl := next?_eq_some_iff.mp hn
      have ht : t ≠ .sym ';' := fun ht => hs ⟨rfl, ht⟩
      have hpart : Closed part.2 :=
        closed_of_suffix (suffix_of_reads (clause_reads henv bound t rest)) (closed_tail h)
      rw [followed_cons, body_top ht, clause_followed_of_not_cut henv h fun hh => hc (.list hh.1 hh.2)]
      exact congrArg (part.1 ++ ·) (ih hpart fun hh => hc (.next ht hh))

/-- One that breaks off goes on behind the `;`, with some names bound, and finds in addition what stands
    there. -/
theorem body_cut (henv : env.Faithful) (hc : CutBody env bound s) (h : Closed s) (z : List Token) :
    ∃ bound', body env true bound (followed s (.sym ')' :: z)) =
      body env true bound s ++ body env true bound' (.sym ')' :: z) := by
  induction hc with
  | @list bound t rest hl hr =>
      have ht : t ≠ .sym ';' := by
        rintro rfl
        cases hl
      have hl' : startsList env t (followed rest (.sym ')' :: z)) = true :=
        (startsList_before (starts_semicolon _) env t rest).trans hl
      obtain ⟨found, hnil, hz⟩ := tableList_cut henv hr (closed_tail h) z
      refine ⟨bound ++ found.bound, ?_⟩
      rw [followed_cons, body_top ht, body_top ht, clause_of_startsList hl, clause_of_startsList hl',
        hnil, hz, body_end, Findings.append_empty]
  | @next bound t rest ht hr ih =>
      -- A list that breaks off here would leave nothing for `hr` to break off in.
      have hlist : ¬ (startsList env t rest = true ∧ CutList env bound rest) := by
        rintro ⟨hl, hh⟩
        obtain ⟨found, hnil, _⟩ := tableList_cut henv hh (closed_tail h) []
        rw [clause_of_startsList hl, hnil] at hr
        exact not_cutBody_nil env _ hr
      have hpart : Closed (clause env bound t rest).2 :=
        closed_of_suffix (suffix_of_reads (clause_reads henv bound t rest)) (closed_tail h)
      obtain ⟨bound', hb⟩ := ih hpart
      refine ⟨bound', ?_⟩
      rw [followed_cons, body_top ht, body_top ht, clause_followed_of_not_cut henv h hlist,
        Findings.append_assoc]
      exact congrArg ((clause env bound t rest).1 ++ ·) hb

/-! ## Statements behind their openings -/

/-- A statement breaks off in the tables of its command or in a later list of tables. -/
def CutRest (env : Env (List Token)) (bound : List String) (type : StatementType)
    (s : List Token) : Prop :=
  CutTargets env bound type s ∨
    CutBody env (bound ++ (targets env bound type s).1.bound) (targets env bound type s).2

/-- A statement that breaks off nowhere ends with the `;`. -/
theorem afterOpening_followed (henv : env.Faithful) {type : StatementType} (h : Closed s)
    (hc : ¬ CutRest env bound type s) (z : List Token) :
    afterOpening env true bound type (followed s z) = afterOpening env true bound type s := by
  have hrest : Closed (targets env bound type s).2 :=
    closed_of_suffix (suffix_of_reads (targets_reads henv bound type s)) h
  unfold afterOpening
  simp only
  rw [targets_followed henv h fun hh => hc (Or.inl hh)]
  simp only [leaving]
  rw [body_followed henv hrest fun hh => hc (Or.inr hh)]

/-- A statement that breaks off goes on behind the `;`. -/
theorem afterOpening_cut (henv : env.Faithful) {type : StatementType} (h : Closed s)
    (hc : CutRest env bound type s) (z : List Token) :
    ∃ bound', afterOpening env true bound type (followed s (.sym ')' :: z)) =
      afterOpening env true bound type s ++ body env true bound' (.sym ')' :: z) := by
  unfold afterOpening
  simp only
  by_cases ht : CutTargets env bound type s
  · obtain ⟨found, hnil, hz⟩ := targets_cut henv h ht z
    refine ⟨bound ++ found.bound, ?_⟩
    rw [hnil, hz, body_end, Findings.append_empty]
  · have hrest : Closed (targets env bound type s).2 :=
      closed_of_suffix (suffix_of_reads (targets_reads henv bound type s)) h
    obtain ⟨bound', hb⟩ := body_cut henv (hc.resolve_left ht) hrest z
    refine ⟨bound', ?_⟩
    rw [targets_followed henv h ht]
    simp only [leaving]
    rw [hb, Findings.append_assoc]

end SqlTables
