import SqlTables.Extraction

/-!
# `SqlTables.Proofs.Progress.Steps` — what happens while a statement is read

Reading a statement takes turns of loops, puts readers where copies of them have gone ahead, and hands spans on
to be searched one level further in. Here every routine notes all of this on its way. It is the same routine
otherwise: it finds the same and leaves the same.

Where a reader stands is given by what it has in front of it, which is an end of the buffer that it reads.

## Contents
- **`Loop`** and **`Step`**: the loops, and what happens in them.
- **`Logged`**: a value with the steps on the way to it.
- **`Level`**: one level of a statement, with every routine in the namespace `Level` and one lemma `value_…`
  for each: without the steps it is the routine of the same name.
- **`value_reading`**: the same for a statement as a whole.
-/

namespace SqlTables

open TokenSource

/-- The loops of the routines, each named for what it passes over. -/
inductive Loop where
  | withClauses
  | commonTables
  | insertModifiers
  | updateModifiers
  | ddlWords
  | tableNames
  | ddlFillers
  | tableAfterOn
  | body
  | tableList
  | expression
  | openParentheses
  | nameParts
  | selectModifiers
  | hosts
  | indexHints
  | joinModifiers
  deriving DecidableEq

/-- What happens while a statement is read. -/
inductive Step where
  /-- A turn of a loop that does not end it: where the reader, or a copy that looks ahead, stands before and
      after. -/
  | turn (loop : Loop) (buffer before after : Bytes)
  /-- A reader is put where a copy of it stands. -/
  | commit (buffer before after : Bytes)
  /-- A span of the buffer is handed on, together with the depth of the buffer. -/
  | search (depth : Nat) (buffer span : Bytes)
  /-- A span that is not too deep is read at this depth. -/
  | enter (depth : Nat)
  deriving DecidableEq

/-- A value with the steps on the way to it. -/
structure Logged (α : Type) where
  value : α
  steps : List Step

namespace Logged

variable {α β : Type}

instance : Monad Logged where
  pure a := ⟨a, []⟩
  bind x f := ⟨(f x.value).value, x.steps ++ (f x.value).steps⟩

/-- One step. -/
def note (e : Step) : Logged Unit := ⟨(), [e]⟩

@[simp] theorem value_pure (a : α) : (pure a : Logged α).value = a := rfl

@[simp] theorem value_bind (x : Logged α) (f : α → Logged β) : (x >>= f).value = (f x.value).value := rfl

end Logged

open Logged (note)

/-- One level of a statement. -/
structure Level where
  lower : Bool
  usingTables : Bool
  /-- What is read on this level. -/
  buffer : Bytes
  depth : Nat
  /-- The search of the spans inside of it. -/
  search : Place → List String → Bytes → Logged Findings

namespace Level

variable (l : Level)

/-- What the routines are given, which take no steps. -/
def env : Env Bytes where
  lower := l.lower
  usingTables := l.usingTables
  search place bound span := (l.search place bound span).value

def turn (loop : Loop) (before after : Bytes) : Logged Unit := note (.turn loop l.buffer before after)

def commit (before after : Bytes) : Logged Unit := note (.commit l.buffer before after)

/-- Hands a span on. -/
def handOn (place : Place) (bound : List String) (span : Bytes) : Logged Findings := do
  note (.search l.depth l.buffer span)
  l.search place bound span

@[simp] theorem value_handOn (place : Place) (bound : List String) (span : Bytes) :
    (l.handOn place bound span).value = l.env.search place bound span := rfl

/-! ## Loops that pass over tokens -/

def skipWhile (loop : Loop) (p : Token → Bool) (s : Bytes) : Logged Bytes :=
  match _h : accept? p s with
  | some rest => do
      l.turn loop s rest
      skipWhile loop p rest
  | none => pure s
termination_by size s
decreasing_by exact size_lt_of_accept? ‹_›

/-- Without its steps the loop is the one that takes none. -/
@[simp] theorem value_skipWhile (loop : Loop) (p : Token → Bool) (s : Bytes) :
    (l.skipWhile loop p s).value = TokenSource.skipWhile p s := by
  fun_induction skipWhile l loop p s with
  | case1 s rest h ih =>
      rw [Logged.value_bind, ih, skipWhile_eq p s, h]
  | case2 s h =>
      rw [skipWhile_eq, h]
      rfl

def skipKeywords (loop : Loop) (p : Keyword → Bool) (s : Bytes) : Logged Bytes :=
  l.skipWhile loop (·.isKeyword p) s

@[simp] theorem value_skipKeywords (loop : Loop) (p : Keyword → Bool) (s : Bytes) :
    (l.skipKeywords loop p s).value = TokenSource.skipKeywords p s :=
  l.value_skipWhile loop _ s

/-! ## Names -/

/-- A copy reads a dot and the next part of a name, and the reader follows it. -/
def furtherParts (name : QualifiedName) (s : Bytes) : Logged (QualifiedName × Bytes) :=
  match _h : dottedPart? s with
  | some (part, rest) => do
      l.commit s rest
      l.turn .nameParts s rest
      furtherParts ⟨some name.table, part⟩ rest
  | none => pure (name, s)
termination_by size s
decreasing_by exact size_lt_of_dottedPart? ‹_›

@[simp] theorem value_furtherParts (name : QualifiedName) (s : Bytes) :
    (l.furtherParts name s).value = SqlTables.furtherParts name s := by
  fun_induction furtherParts l name s with
  | case1 name s part rest h ih =>
      rw [Logged.value_bind, Logged.value_bind, ih, furtherParts_eq name s, h]
  | case2 name s h =>
      rw [furtherParts_eq, h]
      rfl

def qualifiedName? (s : Bytes) : Logged (Option (QualifiedName × Bytes)) :=
  match next? s with
  | some (t, rest) =>
      if startsName t then do
        let name ← l.furtherParts ⟨none, t⟩ rest
        return some name
      else pure none
  | none => pure none

@[simp] theorem value_qualifiedName? (s : Bytes) :
    (l.qualifiedName? s).value = SqlTables.qualifiedName? s := by
  unfold qualifiedName? SqlTables.qualifiedName?
  cases next? s with
  | none => rfl
  | some first =>
      simp only
      split
      · simp
      · rfl

def skipName (s : Bytes) : Logged Bytes := do
  let name ← l.qualifiedName? s
  return (name.map Prod.snd).getD s

@[simp] theorem value_skipName (s : Bytes) : (l.skipName s).value = SqlTables.skipName s := by
  unfold skipName SqlTables.skipName
  simp only [Logged.value_bind, Logged.value_pure, value_qualifiedName?]
  cases SqlTables.qualifiedName? s <;> rfl

def tableName? (bound : List String) (s : Bytes) : Logged (Option (Findings × Bytes)) := do
  let name ← l.qualifiedName? s
  return name.map fun (name, rest) => (l.env.record bound name, rest)

@[simp] theorem value_tableName? (bound : List String) (s : Bytes) :
    (l.tableName? bound s).value = SqlTables.tableName? l.env bound s := by
  simp [tableName?, SqlTables.tableName?]

def tableName (bound : List String) (s : Bytes) : Logged (Findings × Bytes) := do
  let named ← l.tableName? bound s
  return named.getD (∅, s)

@[simp] theorem value_tableName (bound : List String) (s : Bytes) :
    (l.tableName bound s).value = SqlTables.tableName l.env bound s := by
  simp [tableName, SqlTables.tableName]

/-! ## Lists of tables -/

/-- A copy reads an index hint, and the reader follows it. -/
def skipIndexHints (s : Bytes) : Logged Bytes :=
  match _h : indexHint? s with
  | some rest => do
      l.commit s rest
      l.turn .indexHints s rest
      skipIndexHints rest
  | none => pure s
termination_by size s
decreasing_by exact size_lt_of_indexHint? ‹_›

@[simp] theorem value_skipIndexHints (s : Bytes) :
    (l.skipIndexHints s).value = SqlTables.skipIndexHints s := by
  fun_induction skipIndexHints l s with
  | case1 s rest h ih =>
      rw [Logged.value_bind, Logged.value_bind, ih, skipIndexHints_eq s, h]
  | case2 s h =>
      rw [skipIndexHints_eq, h]
      rfl

/-- A copy looks for a comma or a join, and the reader follows it if one comes. -/
def nextTable? (s : Bytes) : Logged (Option Bytes) :=
  match acceptSym? ',' s with
  | some rest => do
      l.commit s rest
      return some rest
  | none => do
      let joined ← l.skipKeywords .joinModifiers Keyword.isJoinModifier s
      match acceptKeyword? Keyword.isJoin joined with
      | some rest =>
          l.commit s rest
          return some rest
      | none => return none

/-- The copy that looks ahead leaves no trace in what is found. -/
@[simp] theorem value_nextTable? (s : Bytes) : (l.nextTable? s).value = SqlTables.nextTable? s := by
  unfold nextTable? SqlTables.nextTable?
  cases acceptSym? ',' s with
  | some rest => rfl
  | none =>
      simp only [Logged.value_bind, value_skipKeywords]
      split
      · next h => exact h.symm
      · next h => exact h.symm

def tableItem? (bound : List String) (s : Bytes) : Logged (Option (Findings × Bytes)) :=
  match acceptSym? '(' s with
  | some inside => do
      let found ← l.handOn .tableList bound (enclosed inside).1
      let rest ← l.skipIndexHints (skipSpan (skipAlias (enclosed inside).2))
      return some (found, rest)
  | none =>
      match acceptKeyword? (· == .DUAL) s with
      | some rest => do
          let rest ← l.skipIndexHints (skipAlias rest)
          return some (∅, rest)
      | none => do
          match ← l.tableName? bound s with
          | some (found, rest) =>
              let rest ← l.skipIndexHints (skipAlias (skipPartition rest))
              return some (found, rest)
          | none => return none

/-- What an item hands on is searched as by the environment. -/
@[simp] theorem value_tableItem? (bound : List String) (s : Bytes) :
    (l.tableItem? bound s).value = SqlTables.tableItem? l.env bound s := by
  unfold tableItem? SqlTables.tableItem?
  cases acceptSym? '(' s with
  | some inside => simp
  | none =>
      cases acceptKeyword? (· == .DUAL) s with
      | some rest => simp
      | none =>
          simp only [Logged.value_bind, value_tableName?]
          cases SqlTables.tableName? l.env bound s with
          | some named => simp
          | none => rfl

def tableList (bound : List String) (s : Bytes) : Logged (Findings × Bytes) :=
  -- Not a `do` block: only the equation for the item's value tells that less is left to read.
  let item := l.tableItem? bound s
  match _h : item.value with
  | none => ⟨(∅, s), item.steps⟩
  | some (found, rest) =>
      let next := l.nextTable? rest
      match _hn : next.value with
      | none => ⟨(found, rest), item.steps ++ next.steps⟩
      | some start =>
          let more := do
            l.turn .tableList s start
            tableList (bound ++ found.bound) start
          ⟨(found ++ more.value.1, more.value.2), item.steps ++ next.steps ++ more.steps⟩
termination_by size s
decreasing_by
  have hn : SqlTables.nextTable? rest = some start := (l.value_nextTable? rest).symm.trans ‹_›
  have h : SqlTables.tableItem? l.env bound s = some (found, rest) :=
    (l.value_tableItem? bound s).symm.trans ‹_›
  exact Nat.lt_trans (size_lt_of_nextTable? hn) (size_lt_of_tableItem? h)

/-- A list with its steps goes on exactly where the plain one does. -/
@[simp] theorem value_tableList (bound : List String) (s : Bytes) :
    (l.tableList bound s).value = SqlTables.tableList l.env bound s := by
  fun_induction tableList l bound s with
  | case1 bound s item h =>
      rw [value_tableItem?] at h
      rw [tableList_eq, h]
  | case2 bound s item found rest h next hn =>
      rw [value_tableItem?] at h
      rw [value_nextTable?] at hn
      rw [tableList_eq, h]
      simp only [hn]
  | case3 bound s item found rest h next start hn more ih =>
      rw [value_tableItem?] at h
      rw [value_nextTable?] at hn
      rw [tableList_eq, h]
      simp only [hn, more, Logged.value_bind, ih]

/-! ## Openings -/

def commonTables (isRecursive : Bool) (bound : List String) (s : Bytes) : Logged (Findings × Bytes) :=
  match _h : next? s with
  | none => pure (∅, s)
  | some (t, rest) =>
      if t.isIdentifier then
        let name := [t.name l.lower]
        let early := Findings.ofNames (if isRecursive then name else [])
        let late := Findings.ofNames (if isRecursive then [] else name)
        match _hb : openBody (skipSpan rest) with
        | .error stop => pure (early, stop)
        | .ok inside =>
            let held := l.handOn .expression (bound ++ early.bound) (enclosed inside).1
            let found := early ++ held.value ++ late
            match _hc : acceptSym? ',' (enclosed inside).2 with
            | none => ⟨(found, (enclosed inside).2), held.steps⟩
            | some next =>
                let more := do
                  l.turn .commonTables s next
                  commonTables isRecursive (bound ++ found.bound) next
                ⟨(found ++ more.value.1, more.value.2), held.steps ++ more.steps⟩
      else pure (∅, s)
termination_by size s
decreasing_by
  have h1 := size_lt_of_next? ‹next? s = _›
  have h2 := size_skipSpan_le rest
  have h3 := size_openBody_ok ‹openBody _ = _›
  have h4 := size_afterSpan_le inside
  have h5 := size_lt_of_accept? ‹acceptSym? ',' _ = _›
  omega

/-- The bodies of both lists of definitions are read behind the same names. -/
@[simp] theorem value_commonTables (isRecursive : Bool) (bound : List String) (s : Bytes) :
    (l.commonTables isRecursive bound s).value = SqlTables.commonTables l.env isRecursive bound s := by
  fun_induction commonTables l isRecursive bound s with
  | case1 bound s h =>
      rw [commonTables_eq, h]
      rfl
  | case2 bound s t rest h hi name early stop hb =>
      rw [commonTables_eq, h]
      simp only [hi, if_true, hb]
      rfl
  | case3 bound s t rest h hi name early late inside hb held found hc =>
      rw [commonTables_eq, h]
      simp only [hi, if_true, hb, hc]
      rfl
  | case4 bound s t rest h hi name early late inside hb held found next hc more ih =>
      rw [commonTables_eq, h]
      simp only [hi, if_true, hb, hc, more, Logged.value_bind, ih]
      rfl
  | case5 bound s t rest h hi =>
      rw [commonTables_eq, h]
      simp only [hi]
      rfl

def withClause (bound : List String) (s : Bytes) : Logged (Findings × Bytes) :=
  match acceptKeyword? (· == .RECURSIVE) s with
  | some rest => l.commonTables true bound rest
  | none => l.commonTables false bound s

@[simp] theorem value_withClause (bound : List String) (s : Bytes) :
    (l.withClause bound s).value = SqlTables.withClause l.env bound s := by
  unfold withClause SqlTables.withClause
  cases acceptKeyword? (· == .RECURSIVE) s with
  | some rest => exact l.value_commonTables true bound rest
  | none => exact l.value_commonTables false bound s

/-- A copy passes over parentheses to see whether a query follows. -/
def startsParenthesizedQuery (s : Bytes) : Logged Bool := do
  let inside ← l.skipWhile .openParentheses (· == .sym '(') s
  return startsQuery inside

@[simp] theorem value_startsParenthesizedQuery (s : Bytes) :
    (l.startsParenthesizedQuery s).value = SqlTables.startsParenthesizedQuery s := by
  simp [startsParenthesizedQuery, SqlTables.startsParenthesizedQuery]

def opening (bound : List String) (s : Bytes) : Logged (Opening Bytes) :=
  match _h : next? s with
  | none => pure ⟨∅, .unknown, s⟩
  | some (t, rest) =>
      match t.keyword? with
      | some .WITH =>
          let clause := l.withClause bound rest
          let more := do
            l.turn .withClauses s clause.value.2
            opening (bound ++ clause.value.1.bound) clause.value.2
          ⟨{ more.value with found := clause.value.1 ++ more.value.found }, clause.steps ++ more.steps⟩
      | some k =>
          match k.statementType? with
          | some type => pure ⟨∅, type, rest⟩
          | none => pure ⟨∅, .unknown, s⟩
      | none =>
          if t = .sym '(' then do
            if ← l.startsParenthesizedQuery s then return ⟨∅, .select, s⟩
            else return ⟨∅, .unknown, s⟩
          else pure ⟨∅, .unknown, s⟩
termination_by size s
decreasing_by
  rw [value_withClause]
  exact Nat.lt_of_le_of_lt (size_withClause_le l.env bound rest) (size_lt_of_next? ‹_›)

/-- Both openings go on behind the same clause. -/
@[simp] theorem value_opening (bound : List String) (s : Bytes) :
    (l.opening bound s).value = SqlTables.opening l.env bound s := by
  fun_induction opening l bound s with
  | case1 bound s h =>
      rw [opening_eq, h]
      rfl
  | case2 bound s t rest h hk clause more ih =>
      have hclause : clause.value = SqlTables.withClause l.env bound rest := l.value_withClause bound rest
      rw [hclause] at ih
      rw [opening_eq, h]
      simp only [hk, more, Logged.value_bind, hclause, ih]
  | case3 bound s t rest h k hw hk type ht =>
      rw [opening_eq, h]
      simp only [hk, ht]
      rfl
  | case4 bound s t rest h k hw hk ht =>
      rw [opening_eq, h]
      simp only [hk, ht]
      rfl
  | case5 bound s rest h hk =>
      rw [opening_eq, h]
      simp only [hk, Logged.value_bind, value_startsParenthesizedQuery, true_and]
      split
      · rfl
      · rfl
  | case6 bound s t rest h hk ho =>
      rw [opening_eq, h]
      simp only [hk, ho]
      rfl

/-! ## Targets of commands -/

def skipHosts (s : Bytes) : Logged Bytes :=
  match _h : acceptSym? '@' s with
  | some rest => do
      l.turn .hosts s (advance rest)
      skipHosts (advance rest)
  | none => pure s
termination_by size s
decreasing_by exact Nat.lt_of_le_of_lt (size_advance_le rest) (size_lt_of_accept? ‹_›)

@[simp] theorem value_skipHosts (s : Bytes) : (l.skipHosts s).value = SqlTables.skipHosts s := by
  fun_induction skipHosts l s with
  | case1 s rest h ih =>
      rw [Logged.value_bind, ih, skipHosts_eq s, h]
  | case2 s h =>
      rw [skipHosts_eq, h]
      rfl

def skipOptionValue (s : Bytes) : Logged Bytes :=
  match acceptSym? '=' s with
  | some rest => do
      let rest ← l.skipHosts (advance rest)
      return skipSpan rest
  | none => pure s

@[simp] theorem value_skipOptionValue (s : Bytes) :
    (l.skipOptionValue s).value = SqlTables.skipOptionValue s := by
  unfold skipOptionValue SqlTables.skipOptionValue
  cases acceptSym? '=' s with
  | some rest => simp
  | none => rfl

def ddlObject (kindKnown : Bool) (s : Bytes) : Logged (DdlObject × Bytes) :=
  match _h : next? s with
  | none => pure (.table, s)
  | some (t, rest) =>
      match t.keyword? with
      | some k =>
          if k.isDdlFiller then do
            l.turn .ddlWords s rest
            ddlObject (kindKnown || k == .TABLE || k == .VIEW) rest
          else if k.isAttachedObject then pure (.attached, rest)
          else if k.isOtherObject then pure (.other, s)
          else pure (.table, s)
      | none =>
          if kindKnown then pure (.table, s)
          else if t.isWordOf otherObjects then pure (.other, s)
          else if t.isWordOf ddlOptions then
            let option := l.skipOptionValue rest
            let more := do
              l.turn .ddlWords s option.value
              ddlObject kindKnown option.value
            ⟨more.value, option.steps ++ more.steps⟩
          else pure (.table, s)
termination_by size s
decreasing_by
  · exact size_lt_of_next? ‹_›
  · rw [value_skipOptionValue]
    exact Nat.lt_of_le_of_lt (size_skipOptionValue_le rest) (size_lt_of_next? ‹_›)

/-- The value of an option is passed with its steps or without. -/
@[simp] theorem value_ddlObject (kindKnown : Bool) (s : Bytes) :
    (l.ddlObject kindKnown s).value = SqlTables.ddlObject kindKnown s := by
  fun_induction ddlObject l kindKnown s with
  | case1 kindKnown s h => rw [ddlObject_eq, h]; rfl
  | case2 kindKnown s t rest h k hk hf ih =>
      rw [ddlObject_eq, h]
      simp only [hk, hf, if_true, Logged.value_bind, ih]
  | case3 kindKnown s t rest h k hk hf ha =>
      rw [ddlObject_eq, h]
      simp only [hk, hf, ha, if_true]
      rfl
  | case4 kindKnown s t rest h k hk hf ha ho =>
      rw [ddlObject_eq, h]
      simp only [hk, hf, ha, ho, if_true]
      rfl
  | case5 kindKnown s t rest h k hk hf ha ho =>
      rw [ddlObject_eq, h]
      simp only [hk, hf, ha, ho]
      rfl
  | case6 s t rest h hk =>
      rw [ddlObject_eq, h]
      simp only [hk]
      rfl
  | case7 kindKnown s t rest h hk hn ho =>
      rw [ddlObject_eq, h]
      simp only [hk, hn, ho, if_true]
      rfl
  | case8 kindKnown s t rest h hk hn ho hd option more ih =>
      have hoption : option.value = SqlTables.skipOptionValue rest := l.value_skipOptionValue rest
      rw [hoption] at ih
      rw [ddlObject_eq, h]
      simp only [hk, if_neg hn, if_neg ho, if_pos hd, more, Logged.value_bind, hoption, ih]
  | case9 kindKnown s t rest h hk hn ho hd =>
      rw [ddlObject_eq, h]
      simp only [hk, hn, ho, hd]
      rfl

def tableAfterOn (bound : List String) (s : Bytes) : Logged (Findings × Bytes) :=
  match _h : next? s with
  | none => pure (∅, s)
  | some (t, rest) =>
      if t = .sym ';' then pure (∅, rest)
      else if t.isKeyword (· == .ON) then l.tableName bound rest
      else do
        l.turn .tableAfterOn s rest
        tableAfterOn bound rest
termination_by size s
decreasing_by exact size_lt_of_next? ‹_›

@[simp] theorem value_tableAfterOn (bound : List String) (s : Bytes) :
    (l.tableAfterOn bound s).value = SqlTables.tableAfterOn l.env bound s := by
  fun_induction tableAfterOn l bound s with
  | case1 s h =>
      rw [tableAfterOn_eq, h]
      rfl
  | case2 s rest h =>
      rw [tableAfterOn_eq, h]
      rfl
  | case3 s t rest h hs ho =>
      rw [tableAfterOn_eq, h, value_tableName]
      simp only [hs, ho, if_true, if_false]
  | case4 s t rest h hs ho ih =>
      rw [tableAfterOn_eq, h, Logged.value_bind, ih]
      simp only [hs, ho, if_false]
      rfl

def tableNames (bound : List String) (s : Bytes) : Logged (Findings × Bytes) :=
  let named := l.tableName? bound s
  match _h : named.value with
  | none => ⟨(∅, s), named.steps⟩
  | some (found, rest) =>
      match _hc : acceptSym? ',' rest with
      | none => ⟨(found, rest), named.steps⟩
      | some next =>
          let more := do
            l.turn .tableNames s next
            tableNames bound next
          ⟨(found ++ more.value.1, more.value.2), named.steps ++ more.steps⟩
termination_by size s
decreasing_by
  have h : SqlTables.tableName? l.env bound s = some (found, rest) :=
    (l.value_tableName? bound s).symm.trans ‹_›
  exact Nat.lt_trans (size_lt_of_accept? ‹_›) (size_lt_of_tableName? h)

@[simp] theorem value_tableNames (bound : List String) (s : Bytes) :
    (l.tableNames bound s).value = SqlTables.tableNames l.env bound s := by
  fun_induction tableNames l bound s with
  | case1 s named h =>
      rw [value_tableName?] at h
      rw [tableNames_eq, h]
  | case2 s named found rest h hc =>
      rw [value_tableName?] at h
      rw [tableNames_eq, h]
      simp only [hc]
  | case3 s named found rest h next hc more ih =>
      rw [value_tableName?] at h
      rw [tableNames_eq, h]
      simp only [hc, more, Logged.value_bind, ih]

def ddlTargets (bound : List String) (type : StatementType) (s : Bytes) : Logged (Findings × Bytes) := do
  match ← l.ddlObject (type == .truncate) s with
  | (.table, rest) => if type == .drop then l.tableNames bound rest else l.tableName bound rest
  | (.attached, rest) =>
      let name ← l.skipKeywords .ddlFillers Keyword.isDdlFiller rest
      let behind ← l.skipName name
      l.tableAfterOn bound behind
  | (.other, rest) => return (∅, rest)

@[simp] theorem value_ddlTargets (bound : List String) (type : StatementType) (s : Bytes) :
    (l.ddlTargets bound type s).value = SqlTables.ddlTargets l.env bound type s := by
  unfold ddlTargets SqlTables.ddlTargets
  simp only [Logged.value_bind, value_ddlObject]
  obtain ⟨object, rest⟩ := SqlTables.ddlObject (type == .truncate) s
  cases object with
  | table =>
      simp only
      split
      · exact l.value_tableNames bound rest
      · exact l.value_tableName bound rest
  | attached => simp
  | other => rfl

def targets (bound : List String) (type : StatementType) (s : Bytes) : Logged (Findings × Bytes) :=
  match type with
  | .insert | .replace => do
      let name ← l.skipKeywords .insertModifiers Keyword.isInsertModifier s
      l.tableName bound name
  | .update => do
      let list ← l.skipKeywords .updateModifiers Keyword.isUpdateModifier s
      l.tableList bound list
  | .alter | .drop | .create | .truncate => l.ddlTargets bound type s
  | .select => do
      let rest ← l.skipKeywords .selectModifiers Keyword.isSelectModifier s
      return (∅, rest)
  | .delete | .unknown => pure (∅, s)

@[simp] theorem value_targets (bound : List String) (type : StatementType) (s : Bytes) :
    (l.targets bound type s).value = SqlTables.targets l.env bound type s := by
  cases type <;> simp [targets, SqlTables.targets]

/-! ## Statements and spans -/

def clause (bound : List String) (t : Token) (rest : Bytes) : Logged (Findings × Bytes) :=
  if t = .sym '(' then do
    let found ← l.handOn .expression bound (enclosed rest).1
    return (found, (enclosed rest).2)
  else
    match t.keyword? with
    | some k =>
        if k == .FROM || k.isJoin then l.tableList bound rest
        else if k == .SELECT then do
          let rest ← l.skipKeywords .selectModifiers Keyword.isSelectModifier rest
          return (∅, rest)
        else if k == .USING && l.usingTables && (acceptSym? '(' rest).isNone then l.tableList bound rest
        else pure (∅, rest)
    | none => pure (∅, rest)

@[simp] theorem value_clause (bound : List String) (t : Token) (rest : Bytes) :
    (l.clause bound t rest).value = SqlTables.clause l.env bound t rest := by
  unfold clause SqlTables.clause
  split
  · rfl
  · cases t.keyword? with
    | none => rfl
    | some k =>
        simp only
        split
        · exact l.value_tableList bound rest
        · split
          · simp
          · rw [apply_ite Logged.value, value_tableList]
            rfl

def body (isTop : Bool) (bound : List String) (s : Bytes) : Logged Findings :=
  match _h : next? s with
  | none => pure ∅
  | some (t, rest) =>
      if isTop ∧ t = .sym ';' then pure ∅
      else
        let part := l.clause bound t rest
        let more := do
          l.turn .body s part.value.2
          body isTop (bound ++ part.value.1.bound) part.value.2
        ⟨part.value.1 ++ more.value, part.steps ++ more.steps⟩
termination_by size s
decreasing_by
  rw [value_clause]
  exact Nat.lt_of_le_of_lt (size_clause_le l.env bound t rest) (size_lt_of_next? ‹_›)

/-- Each clause with its steps leaves what the plain one leaves, so the rest is the same too. -/
@[simp] theorem value_body (isTop : Bool) (bound : List String) (s : Bytes) :
    (l.body isTop bound s).value = SqlTables.body l.env isTop bound s := by
  fun_induction body l isTop bound s with
  | case1 bound s h =>
      rw [body_eq, h]
      rfl
  | case2 bound s t rest h ht =>
      rw [body_eq, h]
      simp only [ht]
      rfl
  | case3 bound s t rest h ht part more ih =>
      have hpart : part.value = SqlTables.clause l.env bound t rest := l.value_clause bound t rest
      rw [hpart] at ih
      rw [body_eq, h]
      simp only [ht, if_false, more, Logged.value_bind, hpart, ih]

def expression (bound : List String) (s : Bytes) : Logged Findings :=
  match _h : next? s with
  | none => pure ∅
  | some (t, rest) =>
      if t = .sym '(' then do
        let found ← l.handOn .expression bound (enclosed rest).1
        l.turn .expression s (enclosed rest).2
        let more ← expression (bound ++ found.bound) (enclosed rest).2
        return found ++ more
      else do
        l.turn .expression s rest
        expression bound rest
termination_by size s
decreasing_by
  · exact Nat.lt_of_le_of_lt (size_afterSpan_le rest) (size_lt_of_next? ‹_›)
  · exact size_lt_of_next? ‹_›

@[simp] theorem value_expression (bound : List String) (s : Bytes) :
    (l.expression bound s).value = SqlTables.expression l.env bound s := by
  fun_induction expression l bound s with
  | case1 bound s h =>
      rw [expression_eq, h]
      rfl
  | case2 bound s rest h ih =>
      rw [expression_eq, h]
      simp only [Logged.value_bind, Logged.value_pure, value_handOn, ih, if_true]
  | case3 bound s t rest h ho ih =>
      rw [expression_eq, h]
      simp only [Logged.value_bind, ih, ho, if_false]

def afterOpening (isTop : Bool) (bound : List String) (type : StatementType) (s : Bytes) :
    Logged Findings := do
  let named ← l.targets bound type s
  let found ← l.body isTop (bound ++ named.1.bound) named.2
  return named.1 ++ found

@[simp] theorem value_afterOpening (isTop : Bool) (bound : List String) (type : StatementType) (s : Bytes) :
    (l.afterOpening isTop bound type s).value = SqlTables.afterOpening l.env isTop bound type s := by
  simp [afterOpening, SqlTables.afterOpening]

def query (bound : List String) (s : Bytes) : Logged Findings := do
  let start ← l.opening bound s
  let found ← l.afterOpening false (bound ++ start.found.bound) start.type start.rest
  return start.found ++ found

@[simp] theorem value_query (bound : List String) (s : Bytes) :
    (l.query bound s).value = SqlTables.query l.env bound s := by
  simp [query, SqlTables.query]

def span (place : Place) (bound : List String) (s : Bytes) : Logged Findings :=
  if startsQuery s then l.query bound s
  else
    match place with
    | .expression => l.expression bound s
    | .tableList => do
        let list ← l.tableList bound s
        let found ← l.body false (bound ++ list.1.bound) list.2
        return list.1 ++ found

@[simp] theorem value_span (place : Place) (bound : List String) (s : Bytes) :
    (l.span place bound s).value = SqlTables.span l.env place bound s := by
  unfold span SqlTables.span
  split
  · exact l.value_query bound s
  · cases place with
    | expression => exact l.value_expression bound s
    | tableList => simp

/-! ## Levels of nesting -/

/-- Reads a span from a depth, with `left` levels left to search. -/
def searchWithin (lower usingTables : Bool) : (left depth : Nat) → Place → List String → Bytes → Logged Findings
  | 0, _ => fun _ _ _ => pure ∅
  | left + 1, depth => fun place bound s => do
      note (.enter (depth + 1))
      span ⟨lower, usingTables, s, depth + 1, searchWithin lower usingTables left (depth + 1)⟩ place bound s

/-- A level that is `depth` levels inside of the statement, with `left` more to search. -/
def nested (lower usingTables : Bool) (left depth : Nat) (buffer : Bytes) : Level :=
  ⟨lower, usingTables, buffer, depth, searchWithin lower usingTables left depth⟩

/-- A level that is given the search one level further in is the environment with this search, at each
    depth. -/
@[simp] theorem env_nested (lower usingTables : Bool) (left depth : Nat) (buffer : Bytes) :
    (nested lower usingTables left depth buffer).env = Env.nested lower usingTables left := by
  induction left generalizing depth buffer with
  | zero => rfl
  | succ left ih =>
      have hsearch (place : Place) (bound : List String) (s : Bytes) :
          (searchWithin lower usingTables (left + 1) depth place bound s).value =
            SqlTables.span (Env.nested lower usingTables left) place bound s := by
        rw [← ih (depth + 1) s]
        exact value_span _ place bound s
      simp only [env, nested, hsearch]
      rfl

end Level

/-- Reads a statement, where `held` is the type known before. -/
def reading (options : Options) (held : StatementType) (text : Bytes) :
    Logged (StatementType × List TableReference) := do
  let level (type : StatementType) : Level :=
    .nested options.lowerCaseNames (type == .delete) options.maxDepth 0 text
  let start ← (level held).opening [] text
  let known := held.orElse start.type
  let rest ← (level known).afterOpening true start.found.bound start.type start.rest
  return (known, (start.found ++ rest).references)

/-- **The steps go with the reading itself.** Without them, what reads a statement here is `extract`. -/
theorem value_reading (options : Options) (held : StatementType) (text : Bytes) :
    (reading options held text).value = extract options held text := by
  simp [reading, extract]

end SqlTables
