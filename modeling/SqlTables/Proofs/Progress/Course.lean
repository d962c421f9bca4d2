import SqlTables.Proofs.Ends
import SqlTables.Proofs.Progress.Steps

/-!
# `SqlTables.Proofs.Progress.Course` — bound names do not steer the reading

The steps of a reading are the turns of its loops, the places where its readers stand, and the spans that it
hands on, each with its depth. None of them depends on the names that are bound: only what is recorded does.

## Contents
- **`Level.Steady`**: a level whose spans are read in the same steps behind any names.
- One lemma `steps_…` for each routine that is given names.
- **`steady_nested`**: every level is steady.
-/

namespace SqlTables

open TokenSource

/-- Readings one after another take the same steps if both parts do. -/
theorem Logged.steps_bind {α α' β β' : Type} {x : Logged α} {y : Logged α'} {f : α → Logged β}
    {g : α' → Logged β'} (h : x.steps = y.steps) (hf : (f x.value).steps = (g y.value).steps) :
    (x >>= f).steps = (y >>= g).steps := by
  show x.steps ++ (f x.value).steps = y.steps ++ (g y.value).steps
  rw [h, hf]

namespace Level

/-- The spans of a level are read in the same steps behind any names. -/
def Steady (l : Level) : Prop :=
  ∀ (place : Place) (b c : List String) (span : Bytes),
    (l.search place b span).steps = (l.search place c span).steps

variable {l : Level}

/-- A span is handed on before anything is known of it. -/
theorem steps_handOn (hl : l.Steady) (place : Place) (b c : List String) (span : Bytes) :
    (l.handOn place b span).steps = (l.handOn place c span).steps :=
  Logged.steps_bind rfl (hl place b c span)

/-! ## Tables and lists -/

/-- A name is read before the names that are bound are asked for. -/
theorem steps_tableName? (b c : List String) (s : Bytes) :
    (l.tableName? b s).steps = (l.tableName? c s).steps := rfl

theorem steps_tableName (b c : List String) (s : Bytes) :
    (l.tableName b s).steps = (l.tableName c s).steps := rfl

/-- Of an item only the span of a derived table is handed on. -/
theorem steps_tableItem? (hl : l.Steady) (b c : List String) (s : Bytes) :
    (l.tableItem? b s).steps = (l.tableItem? c s).steps := by
  unfold tableItem?
  split
  · exact Logged.steps_bind (steps_handOn hl .tableList b c _) rfl
  · split
    · rfl
    · have hrest := rest_tableName? l.env l.env b c s
      refine Logged.steps_bind (steps_tableName? b c s) ?_
      rw [value_tableName?, value_tableName?]
      cases h : SqlTables.tableName? l.env b s with
      | none => rw [eq_none_of_rest hrest h]
      | some x =>
          obtain ⟨g, hg⟩ := exists_of_rest hrest h
          rw [hg]
          rfl

/-- A list unfolded once, with what its item finds and the steps that it takes apart from each other. -/
theorem tableList_eq (l : Level) (bound : List String) (s : Bytes) :
    l.tableList bound s = match SqlTables.tableItem? l.env bound s with
      | none => ⟨(∅, s), (l.tableItem? bound s).steps⟩
      | some (found, rest) =>
          match SqlTables.nextTable? rest with
          | none => ⟨(found, rest), (l.tableItem? bound s).steps ++ (l.nextTable? rest).steps⟩
          | some start =>
              let more := do
                l.turn .tableList s start
                l.tableList (bound ++ found.bound) start
              ⟨(found ++ more.value.1, more.value.2),
                (l.tableItem? bound s).steps ++ (l.nextTable? rest).steps ++ more.steps⟩ := by
  -- The instrumented readers decide how to go on by values that are those of the plain ones.
  rw [tableList]
  split
  · next h =>
      rw [value_tableItem?] at h
      rw [h]
  · next h =>
      rw [value_tableItem?] at h
      rw [h]
      simp only
      split
      · next hn =>
          rw [value_nextTable?] at hn
          rw [hn]
      · next hn =>
          rw [value_nextTable?] at hn
          rw [hn]

/-- A list takes its turns where the items end, which no bound name changes. -/
theorem steps_tableList (hl : l.Steady) (b c : List String) (s : Bytes) :
    (l.tableList b s).steps = (l.tableList c s).steps := by
  fun_induction tableList l b s generalizing c with
  | case1 b s item h =>
      rw [value_tableItem?] at h
      rw [tableList_eq, eq_none_of_rest (rest_tableItem? l.env l.env b c s) h]
      exact steps_tableItem? hl b c s
  | case2 b s item found rest h next hn =>
      rw [value_tableItem?] at h
      rw [value_nextTable?] at hn
      obtain ⟨g, hg⟩ := exists_of_rest (rest_tableItem? l.env l.env b c s) h
      rw [tableList_eq, hg]
      simp only [hn]
      rw [← steps_tableItem? hl b c s]
  | case3 b s item found rest h next start hn more ih =>
      rw [value_tableItem?] at h
      rw [value_nextTable?] at hn
      obtain ⟨g, hg⟩ := exists_of_rest (rest_tableItem? l.env l.env b c s) h
      rw [tableList_eq, hg]
      simp only [hn]
      rw [← steps_tableItem? hl b c s]
      -- The items bind other names, but the next one starts at the same place.
      exact congrArg (_ ++ ·) (Logged.steps_bind rfl (ih (c ++ g.bound)))

/-! ## Openings -/

/-- Definitions unfolded once. -/
theorem commonTables_eq (l : Level) (isRecursive : Bool) (bound : List String) (s : Bytes) :
    l.commonTables isRecursive bound s = match next? s with
      | none => pure (∅, s)
      | some (t, rest) =>
          if t.isIdentifier then
            let name := [t.name l.lower]
            let early := Findings.ofNames (if isRecursive then name else [])
            let late := Findings.ofNames (if isRecursive then [] else name)
            match openBody (skipSpan rest) with
            | .error stop => pure (early, stop)
            | .ok inside =>
                let held := l.handOn .expression (bound ++ early.bound) (enclosed inside).1
                let found := early ++ held.value ++ late
                match acceptSym? ',' (enclosed inside).2 with
                | none => ⟨(found, (enclosed inside).2), held.steps⟩
                | some next =>
                    let more := do
                      l.turn .commonTables s next
                      l.commonTables isRecursive (bound ++ found.bound) next
                    ⟨(found ++ more.value.1, more.value.2), held.steps ++ more.steps⟩
          else pure (∅, s) := by
  rw [commonTables]
  split
  · next h => rw [h]
  · next h =>
      rw [h]
      simp only
      split
      · split
        · next hb => rw [hb]
        · next hb =>
            rw [hb]
            simp only
            split <;> next hc => rw [hc]
      · rfl

/-- Each definition binds its name, and every body is read in the same steps behind these names. -/
theorem steps_commonTables (hl : l.Steady) (isRecursive : Bool) (b c : List String) (s : Bytes) :
    (l.commonTables isRecursive b s).steps = (l.commonTables isRecursive c s).steps := by
  fun_induction commonTables l isRecursive b s generalizing c with
  | case1 b s h => rw [commonTables_eq, h]
  | case2 b s t rest h hi name early stop hb =>
      rw [commonTables_eq, h]
      simp only [hi, if_true, hb]
      rfl
  | case3 b s t rest h hi name early late inside hb held found hc =>
      rw [commonTables_eq, h]
      simp only [hi, if_true, hb, hc]
      exact steps_handOn hl .expression _ _ _
  | case4 b s t rest h hi name early late inside hb held found next hc more ih =>
      rw [commonTables_eq, h]
      simp only [hi, if_true, hb, hc]
      have hheld := steps_handOn hl .expression (b ++ early.bound) (c ++ early.bound) (enclosed inside).1
      exact congr (congrArg (· ++ ·) hheld) (Logged.steps_bind rfl (ih _))
  | case5 b s t rest h hi =>
      rw [commonTables_eq, h]
      simp only [hi]
      rfl

/-- Only the word `RECURSIVE` is looked for in front of the definitions. -/
theorem steps_withClause (hl : l.Steady) (b c : List String) (s : Bytes) :
    (l.withClause b s).steps = (l.withClause c s).steps := by
  unfold withClause
  split
  · exact steps_commonTables hl true b c _
  · exact steps_commonTables hl false b c s

/-- An opening unfolded once. -/
theorem opening_eq (l : Level) (bound : List String) (s : Bytes) :
    l.opening bound s = match next? s with
      | none => pure ⟨∅, .unknown, s⟩
      | some (t, rest) =>
          match t.keyword? with
          | some .WITH =>
              let clause := l.withClause bound rest
              let more := do
                l.turn .withClauses s clause.value.2
                l.opening (bound ++ clause.value.1.bound) clause.value.2
              ⟨{ more.value with found := clause.value.1 ++ more.value.found }, clause.steps ++ more.steps⟩
          | some k =>
              match k.statementType? with
              | some type => pure ⟨∅, type, rest⟩
              | none => pure ⟨∅, .unknown, s⟩
          | none =>
              if t = .sym '(' then do
                if ← l.startsParenthesizedQuery s then return ⟨∅, .select, s⟩
                else return ⟨∅, .unknown, s⟩
              else pure ⟨∅, .unknown, s⟩ := by
  rw [opening]
  split <;> next h =>
    rewrite [h]
    rfl

/-- The next clause starts where the one in front of it ends. -/
theorem steps_opening (hl : l.Steady) (b c : List String) (s : Bytes) :
    (l.opening b s).steps = (l.opening c s).steps := by
  fun_induction opening l b s generalizing c with
  | case1 b s h => rw [opening_eq, h]
  | case2 b s t rest h hk clause more ih =>
      -- Where a clause ends does not depend on the names that are bound.
      have hrest : clause.value.2 = (l.withClause c rest).value.2 := by
        show (l.withClause b rest).value.2 = _
        rw [value_withClause, value_withClause]
        exact rest_withClause l.env l.env b c rest
      rw [opening_eq, h]
      simp only [hk]
      rw [← hrest]
      exact congr (congrArg (· ++ ·) (steps_withClause hl b c rest)) (Logged.steps_bind rfl (ih _))
  | case3 b s t rest h k hw hk type ht =>
      rw [opening_eq, h]
      simp only [hk, ht]
  | case4 b s t rest h k hw hk ht =>
      rw [opening_eq, h]
      simp only [hk, ht]
  | case5 b s rest h hk =>
      rw [opening_eq, h]
      simp only [hk, if_true]
  | case6 b s t rest h hk ho =>
      rw [opening_eq, h]
      simp only [hk, ho]
      rfl

/-! ## Targets of commands -/

/-- The search for `ON` unfolded once. -/
theorem tableAfterOn_eq (l : Level) (bound : List String) (s : Bytes) :
    l.tableAfterOn bound s = match next? s with
      | none => pure (∅, s)
      | some (t, rest) =>
          if t = .sym ';' then pure (∅, rest)
          else if t.isKeyword (· == .ON) then l.tableName bound rest
          else l.turn .tableAfterOn s rest >>= fun _ => l.tableAfterOn bound rest := by
  rw [tableAfterOn]
  split <;> next h => rw [h]

/-- The search takes its turns whatever it will find. -/
theorem steps_tableAfterOn (b c : List String) (s : Bytes) :
    (l.tableAfterOn b s).steps = (l.tableAfterOn c s).steps := by
  fun_induction tableAfterOn l b s with
  | case1 s h => rw [l.tableAfterOn_eq c, h]
  | case2 s rest h =>
      rw [l.tableAfterOn_eq c, h]
      simp only [if_true]
  | case3 s t rest h hs ho =>
      rw [l.tableAfterOn_eq c, h]
      simp only
      rw [if_neg hs, if_pos ho]
      exact steps_tableName b c rest
  | case4 s t rest h hs ho ih =>
      rw [l.tableAfterOn_eq c, h]
      simp only
      rw [if_neg hs, if_neg ho]
      exact Logged.steps_bind rfl ih

/-- A list of names unfolded once. -/
theorem tableNames_eq (l : Level) (bound : List String) (s : Bytes) :
    l.tableNames bound s = match SqlTables.tableName? l.env bound s with
      | none => ⟨(∅, s), (l.tableName? bound s).steps⟩
      | some (found, rest) =>
          match acceptSym? ',' rest with
          | none => ⟨(found, rest), (l.tableName? bound s).steps⟩
          | some next =>
              let more := do
                l.turn .tableNames s next
                l.tableNames bound next
              ⟨(found ++ more.value.1, more.value.2), (l.tableName? bound s).steps ++ more.steps⟩ := by
  rw [tableNames]
  split
  · next h =>
      rw [value_tableName?] at h
      rw [h]
  · next h =>
      rw [value_tableName?] at h
      rw [h]
      simp only
      split <;> next hc => rw [hc]

/-- A name is passed over in the same steps whether it is recorded or not. -/
theorem steps_tableNames (b c : List String) (s : Bytes) :
    (l.tableNames b s).steps = (l.tableNames c s).steps := by
  fun_induction tableNames l b s with
  | case1 s named h =>
      rw [value_tableName?] at h
      rw [tableNames_eq, eq_none_of_rest (rest_tableName? l.env l.env b c s) h]
      exact steps_tableName? b c s
  | case2 s named found rest h hc =>
      rw [value_tableName?] at h
      obtain ⟨g, hg⟩ := exists_of_rest (rest_tableName? l.env l.env b c s) h
      rw [tableNames_eq, hg]
      simp only [hc]
      exact steps_tableName? b c s
  | case3 s named found rest h next hc more ih =>
      rw [value_tableName?] at h
      obtain ⟨g, hg⟩ := exists_of_rest (rest_tableName? l.env l.env b c s) h
      rw [tableNames_eq, hg]
      simp only [hc]
      exact congr (congrArg (· ++ ·) (steps_tableName? b c s)) (Logged.steps_bind rfl ih)

/-- The words in front of the object are passed over without a look at the names. -/
theorem steps_ddlTargets (b c : List String) (type : StatementType) (s : Bytes) :
    (l.ddlTargets b type s).steps = (l.ddlTargets c type s).steps := by
  unfold ddlTargets
  refine Logged.steps_bind rfl ?_
  split
  · split
    · exact steps_tableNames b c _
    · exact steps_tableName b c _
  · exact Logged.steps_bind rfl (Logged.steps_bind rfl (steps_tableAfterOn b c _))
  · rfl

/-- The words in front of the tables of a command are the same, and so is the way through these tables. -/
theorem steps_targets (hl : l.Steady) (b c : List String) (type : StatementType) (s : Bytes) :
    (l.targets b type s).steps = (l.targets c type s).steps := by
  cases type with
  | insert | replace => rfl
  | update => exact Logged.steps_bind rfl (steps_tableList hl b c _)
  | alter | drop | create | truncate => exact steps_ddlTargets b c _ s
  | select | delete | unknown => rfl

/-! ## Statements and spans -/

/-- A token leads to a span, to a list of tables, to modifiers or to nothing, whatever is bound. -/
theorem steps_clause (hl : l.Steady) (b c : List String) (t : Token) (rest : Bytes) :
    (l.clause b t rest).steps = (l.clause c t rest).steps := by
  unfold clause
  split
  · exact Logged.steps_bind (steps_handOn hl .expression b c _) rfl
  · split
    · split
      · exact steps_tableList hl b c rest
      · split
        · rfl
        · split
          · exact steps_tableList hl b c rest
          · rfl
    · rfl

/-- The rest of a statement unfolded once. -/
theorem body_eq (l : Level) (isTop : Bool) (bound : List String) (s : Bytes) :
    l.body isTop bound s = match next? s with
      | none => pure ∅
      | some (t, rest) =>
          if isTop ∧ t = .sym ';' then pure ∅
          else
            let part := l.clause bound t rest
            let more := do
              l.turn .body s part.value.2
              l.body isTop (bound ++ part.value.1.bound) part.value.2
            ⟨part.value.1 ++ more.value, part.steps ++ more.steps⟩ := by
  rw [body]
  split <;> next h => rw [h]

/-- Each clause ends at the same place, and the rest is read from there behind the names that it binds. -/
theorem steps_body (hl : l.Steady) (isTop : Bool) (b c : List String) (s : Bytes) :
    (l.body isTop b s).steps = (l.body isTop c s).steps := by
  fun_induction body l isTop b s generalizing c with
  | case1 b s h => rw [body_eq, h]
  | case2 b s t rest h ht =>
      rw [body_eq, h]
      simp only [if_pos ht]
  | case3 b s t rest h ht part more ih =>
      have hrest : part.value.2 = (l.clause c t rest).value.2 := by
        show (l.clause b t rest).value.2 = _
        rw [value_clause, value_clause]
        exact rest_clause rfl b c t rest
      rw [body_eq, h]
      simp only [if_neg ht]
      rw [← hrest]
      exact congr (congrArg (· ++ ·) (steps_clause hl b c t rest)) (Logged.steps_bind rfl (ih _))

/-- A span of expressions unfolded once. -/
theorem expression_eq (l : Level) (bound : List String) (s : Bytes) :
    l.expression bound s = match next? s with
      | none => pure ∅
      | some (t, rest) =>
          if t = .sym '(' then do
            let found ← l.handOn .expression bound (enclosed rest).1
            l.turn .expression s (enclosed rest).2
            let more ← l.expression (bound ++ found.bound) (enclosed rest).2
            return found ++ more
          else l.turn .expression s rest >>= fun _ => l.expression bound rest := by
  rw [expression]
  split <;> next h => rw [h]

/-- Spans in it are handed on one after another, each behind the names of those in front of it. -/
theorem steps_expression (hl : l.Steady) (b c : List String) (s : Bytes) :
    (l.expression b s).steps = (l.expression c s).steps := by
  fun_induction expression l b s generalizing c with
  | case1 b s h => rw [l.expression_eq c, h]
  | case2 b s rest h ih =>
      rw [l.expression_eq c, h]
      simp only [if_true]
      refine Logged.steps_bind (steps_handOn hl .expression b c _) ?_
      exact Logged.steps_bind rfl (Logged.steps_bind (ih _ _) rfl)
  | case3 b s t rest h ho ih =>
      rw [l.expression_eq c, h]
      simp only [if_neg ho]
      exact Logged.steps_bind rfl (ih c)

/-- The rest of a statement starts where the tables of its command end. -/
theorem steps_afterOpening (hl : l.Steady) (isTop : Bool) (b c : List String) (type : StatementType)
    (s : Bytes) : (l.afterOpening isTop b type s).steps = (l.afterOpening isTop c type s).steps := by
  unfold afterOpening
  refine Logged.steps_bind (steps_targets hl b c type s) ?_
  rw [value_targets, value_targets, rest_targets l.env l.env b c type s]
  exact Logged.steps_bind (steps_body hl isTop _ _ _) rfl

/-- The command that a query opens with decides in which steps it goes on, and no bound name changes it. -/
theorem steps_query (hl : l.Steady) (b c : List String) (s : Bytes) :
    (l.query b s).steps = (l.query c s).steps := by
  unfold query
  refine Logged.steps_bind (steps_opening hl b c s) ?_
  rw [value_opening, value_opening, type_opening l.env l.env b c s, rest_opening l.env l.env b c s]
  exact Logged.steps_bind (steps_afterOpening hl false _ _ _ _) rfl

/-- Whether a span is a query is told by its first token. -/
theorem steps_span (hl : l.Steady) (place : Place) (b c : List String) (s : Bytes) :
    (l.span place b s).steps = (l.span place c s).steps := by
  unfold span
  split
  · exact steps_query hl b c s
  · cases place with
    | expression => exact steps_expression hl b c s
    | tableList =>
        refine Logged.steps_bind (steps_tableList hl b c s) ?_
        rw [value_tableList, value_tableList, rest_tableList l.env l.env b c s]
        exact Logged.steps_bind (steps_body hl false _ _ _) rfl

/-! ## Levels of nesting -/

/-- Whatever names are bound, the spans of a level are read in the same steps, and so are those inside of them. -/
theorem steady_nested (lower usingTables : Bool) (left depth : Nat) (buffer : Bytes) :
    (nested lower usingTables left depth buffer).Steady := by
  induction left generalizing depth buffer with
  | zero => exact fun _ _ _ _ => rfl
  | succ left ih =>
      intro place b c span
      exact Logged.steps_bind rfl (steps_span (ih (depth + 1) span) place b c span)

end Level

end SqlTables
