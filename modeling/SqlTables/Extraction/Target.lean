import SqlTables.Extraction.TableList

/-!
# `SqlTables.Extraction.Target` — the tables that a command names itself

Data changes and schema changes name their tables right after the command, before any clause.

## Contents
- **Schema changes**: `DdlObject`, `ddlObject` (what kind of object follows) and `ddlTargets`.
- **`targets`**: the tables of any command.
-/

namespace SqlTables

open TokenSource

variable {σ : Type} [TokenSource σ]

/-! ## The object of a schema change -/

/-- Passes over `@ host` as often as it comes. -/
def skipHosts (s : σ) : σ :=
  match _h : acceptSym? '@' s with
  | some rest => skipHosts (advance rest)
  | none => s
termination_by size s
decreasing_by exact Nat.lt_of_le_of_lt (size_advance_le rest) (size_lt_of_accept? ‹_›)

theorem skipHosts_eq (s : σ) :
    skipHosts s = match acceptSym? '@' s with
      | some rest => skipHosts (advance rest)
      | none => s := by
  rw [skipHosts]
  split <;> next h => rw [h]

theorem size_skipHosts_le (s : σ) : size (skipHosts s) ≤ size s := by
  fun_induction skipHosts s with
  | case1 s rest h ih =>
      have h1 := size_lt_of_accept? h
      have h2 := size_advance_le rest
      omega
  | case2 => exact Nat.le_refl _

/-- Passes over the value of an option, such as `= 'user'@'host'` or `= CURRENT_USER()`, if it has
    one. -/
def skipOptionValue (s : σ) : σ :=
  match acceptSym? '=' s with
  | some rest => skipSpan (skipHosts (advance rest))
  | none => s

/-- Behind the value of an option no more is left than was there. -/
theorem size_skipOptionValue_le (s : σ) : size (skipOptionValue s) ≤ size s := by
  unfold skipOptionValue
  split
  · next rest h =>
      have h1 := size_lt_of_accept? h
      have h2 := size_advance_le rest
      have h3 := size_skipHosts_le (advance rest)
      have h4 := size_skipSpan_le (skipHosts (advance rest))
      omega
  · exact Nat.le_refl _

/-- What a schema change is about. -/
inductive DdlObject where
  /-- A table or view, whose name comes next. -/
  | table
  /-- An index or trigger, whose name comes next and whose table follows after `ON`. -/
  | attached
  /-- Something that has no table. -/
  | other
  deriving DecidableEq

/-- Reads up to the name of the object. Once `TABLE` or `VIEW` has been read (`kindKnown`), the words of
    other objects and of options are names. -/
def ddlObject (kindKnown : Bool) (s : σ) : DdlObject × σ :=
  match _h : next? s with
  | none => (.table, s)
  | some (t, rest) =>
      match t.keyword? with
      | some k =>
          if k.isDdlFiller then ddlObject (kindKnown || k == .TABLE || k == .VIEW) rest
          else if k.isAttachedObject then (.attached, rest)
          else if k.isOtherObject then (.other, s)
          else (.table, s)
      | none =>
          if kindKnown then (.table, s)
          else if t.isWordOf otherObjects then (.other, s)
          else if t.isWordOf ddlOptions then ddlObject kindKnown (skipOptionValue rest)
          else (.table, s)
termination_by size s
decreasing_by
  · exact size_lt_of_next? ‹_›
  · exact Nat.lt_of_le_of_lt (size_skipOptionValue_le rest) (size_lt_of_next? ‹_›)

/-- The words in front of the object of a schema change, one at a time. -/
theorem ddlObject_eq (kindKnown : Bool) (s : σ) :
    ddlObject kindKnown s = match next? s with
      | none => (.table, s)
      | some (t, rest) =>
          match t.keyword? with
          | some k =>
              if k.isDdlFiller then ddlObject (kindKnown || k == .TABLE || k == .VIEW) rest
              else if k.isAttachedObject then (.attached, rest)
              else if k.isOtherObject then (.other, s)
              else (.table, s)
          | none =>
              if kindKnown then (.table, s)
              else if t.isWordOf otherObjects then (.other, s)
              else if t.isWordOf ddlOptions then ddlObject kindKnown (skipOptionValue rest)
              else (.table, s) := by
  rw [ddlObject]
  split <;> next h => rw [h]

/-- Behind these words no more is left than was there. -/
theorem size_ddlObject_le (kindKnown : Bool) (s : σ) : size (ddlObject kindKnown s).2 ≤ size s := by
  fun_induction ddlObject kindKnown s with
  | case2 kindKnown s t rest h k hk hf ih =>
      exact Nat.le_trans ih (Nat.le_of_lt (size_lt_of_next? h))
  | case3 kindKnown s t rest h => exact Nat.le_of_lt (size_lt_of_next? h)
  | case8 kindKnown s t rest h hk hn ho hd ih =>
      have h1 := size_lt_of_next? h
      have h2 := size_skipOptionValue_le rest
      exact Nat.le_trans ih (by omega)
  | case1 | case4 | case5 | case6 | case7 | case9 => exact Nat.le_refl _

/-! ## The tables of a schema change -/

/-- The table after the next `ON`. A `;` ends the search and is passed. -/
def tableAfterOn (env : Env σ) (bound : List String) (s : σ) : Findings × σ :=
  match _h : next? s with
  | none => (∅, s)
  | some (t, rest) =>
      if t = .sym ';' then (∅, rest)
      else if t.isKeyword (· == .ON) then tableName env bound rest
      else tableAfterOn env bound rest
termination_by size s
decreasing_by exact size_lt_of_next? ‹_›

/-- The search for `ON`, one token at a time. -/
theorem tableAfterOn_eq (env : Env σ) (bound : List String) (s : σ) :
    tableAfterOn env bound s = match next? s with
      | none => (∅, s)
      | some (t, rest) =>
          if t = .sym ';' then (∅, rest)
          else if t.isKeyword (· == .ON) then tableName env bound rest
          else tableAfterOn env bound rest := by
  rw [tableAfterOn]
  split <;> next h => rw [h]

theorem size_tableAfterOn_le (env : Env σ) (bound : List String) (s : σ) :
    size (tableAfterOn env bound s).2 ≤ size s := by
  fun_induction tableAfterOn env bound s with
  | case1 => exact Nat.le_refl _
  | case2 s rest h => exact Nat.le_of_lt (size_lt_of_next? h)
  | case3 s t rest h hs ho =>
      exact Nat.le_trans (size_tableName_le env bound rest) (Nat.le_of_lt (size_lt_of_next? h))
  | case4 s t rest h hs ho ih => exact Nat.le_trans ih (Nat.le_of_lt (size_lt_of_next? h))

/-- Tables separated by commas, without aliases. -/
def tableNames (env : Env σ) (bound : List String) (s : σ) : Findings × σ :=
  match _h : tableName? env bound s with
  | none => (∅, s)
  | some (found, rest) =>
      match _hc : acceptSym? ',' rest with
      | none => (found, rest)
      | some next =>
          let more := tableNames env bound next
          (found ++ more.1, more.2)
termination_by size s
decreasing_by exact Nat.lt_trans (size_lt_of_accept? ‹_›) (size_lt_of_tableName? ‹_›)

/-- A list of names, one at a time. -/
theorem tableNames_eq (env : Env σ) (bound : List String) (s : σ) :
    tableNames env bound s = match tableName? env bound s with
      | none => (∅, s)
      | some (found, rest) =>
          match acceptSym? ',' rest with
          | none => (found, rest)
          | some next => (found ++ (tableNames env bound next).1, (tableNames env bound next).2) := by
  rw [tableNames]
  split
  · next h => rw [h]
  · next h =>
      rw [h]
      simp only
      split <;> next hn => rw [hn]

theorem size_tableNames_le (env : Env σ) (bound : List String) (s : σ) :
    size (tableNames env bound s).2 ≤ size s := by
  fun_induction tableNames env bound s with
  | case1 => exact Nat.le_refl _
  | case2 s found rest h hc => exact Nat.le_of_lt (size_lt_of_tableName? h)
  | case3 s found rest h next hc more ih =>
      have h1 := size_lt_of_tableName? h
      have h2 := size_lt_of_accept? hc
      exact Nat.le_trans ih (by omega)

/-- The tables of a schema change. `DROP` takes a list, any other one table, and `TRUNCATE` takes
    nothing but tables. -/
def ddlTargets (env : Env σ) (bound : List String) (type : StatementType) (s : σ) : Findings × σ :=
  match ddlObject (type == .truncate) s with
  | (.table, rest) =>
      if type == .drop then tableNames env bound rest else tableName env bound rest
  | (.attached, rest) =>
      tableAfterOn env bound (skipName (skipKeywords Keyword.isDdlFiller rest))
  | (.other, rest) => (∅, rest)

/-- Behind the objects of a schema change no more is left than was there. -/
theorem size_ddlTargets_le (env : Env σ) (bound : List String) (type : StatementType) (s : σ) :
    size (ddlTargets env bound type s).2 ≤ size s := by
  have h := size_ddlObject_le (type == .truncate) s
  unfold ddlTargets
  split
  · next rest hd =>
      rw [hd] at h
      split
      · exact Nat.le_trans (size_tableNames_le env bound rest) h
      · exact Nat.le_trans (size_tableName_le env bound rest) h
  · next rest hd =>
      rw [hd] at h
      have h1 := size_skipKeywords_le Keyword.isDdlFiller rest
      have h2 := size_skipName_le (skipKeywords Keyword.isDdlFiller rest)
      have h3 := size_tableAfterOn_le env bound
        (skipName (skipKeywords Keyword.isDdlFiller rest))
      simp only at h
      omega
  · next rest hd =>
      rw [hd] at h
      exact h

/-! ## The tables of any command -/

/-- The tables that come right after a command, and what follows them. -/
def targets (env : Env σ) (bound : List String) (type : StatementType) (s : σ) : Findings × σ :=
  match type with
  | .insert | .replace => tableName env bound (skipKeywords Keyword.isInsertModifier s)
  | .update => tableList env bound (skipKeywords Keyword.isUpdateModifier s)
  | .alter | .drop | .create | .truncate => ddlTargets env bound type s
  | .select => (∅, skipKeywords Keyword.isSelectModifier s)
  | .delete | .unknown => (∅, s)

/-- Behind the targets of a command no more is left than was there. -/
theorem size_targets_le (env : Env σ) (bound : List String) (type : StatementType) (s : σ) :
    size (targets env bound type s).2 ≤ size s := by
  cases type with
  | insert | replace =>
      exact Nat.le_trans (size_tableName_le env bound _) (size_skipKeywords_le _ s)
  | update => exact Nat.le_trans (size_tableList_le env bound _) (size_skipKeywords_le _ s)
  | alter | drop | create | truncate => exact size_ddlTargets_le env bound _ s
  | select => exact size_skipKeywords_le _ s
  | delete | unknown => exact Nat.le_refl _

end SqlTables
