import SqlTables.Proofs.Grammar.Leaves
import SqlTables.Proofs.Occurrence

/-!
# `SqlTables.Proofs.StatementEnd.Readers` — readers in front of a mark

A `;` or a `UNION` ends whatever is read in front of it: put behind tokens whose parentheses are closed, the
mark and what follows it are left by every reader that looks at a token before it takes it. Readers that
take a token unseen are not in this module.

## Contents
- **`IsMark`** and **`Apart`**: the marks, and tokens that the mark does not continue.
- **`closers?`** and **`Closed`**: every parenthesis is closed.
- One lemma `…_before` for each reader in front of any mark, and lemmas `…_followed` for readers in front
  of a `;` (`followed`).
-/

namespace SqlTables

open TokenSource Grammar

/-! ## Marks -/

/-- A token that ends a part of a statement. -/
def IsMark (t : Token) : Prop := t = .sym ';' ∨ t.isKeyword (· == .UNION) = true

variable {s rest z : List Token} {t : Token}

theorem isMark_semicolon : IsMark (.sym ';') := Or.inl rfl

/-- A mark is a keyword of no kind that leaves out `UNION`; a `;` is none at all. -/
theorem IsMark.isKeyword {p : Keyword → Bool} (hp : p .UNION = false) (h : IsMark t) :
    t.isKeyword p = false := by
  rcases h with rfl | h
  · rfl
  · rw [Token.isKeyword_of_keyword? (keyword?_of_isKeyword h), hp]

theorem IsMark.ne_sym {c : Char} (hc : Token.sym ';' ≠ .sym c) (h : IsMark t) : t ≠ .sym c := by
  rcases h with rfl | h
  · exact hc
  · exact ne_sym_of_isKeyword h c

/-- No table is named by a mark: `UNION` ends a list of tables. -/
theorem IsMark.startsName (h : IsMark t) : startsName t = false := by
  rcases h with rfl | h
  · rfl
  · have hends : t.isKeyword Keyword.endsTableList = true :=
      isKeyword_imp (forall_keyword (by decide)) h
    rw [SqlTables.startsName, hends, Bool.not_true, Bool.and_false]

/-- Nor is it taken for an alias. -/
theorem IsMark.isAlias (h : IsMark t) : isAlias t = false := by
  rcases h with rfl | h
  · rfl
  · obtain ⟨k, hk, _⟩ := (Option.any_eq_true _ _).mp h
    have hname := IsMark.startsName (Or.inr h)
    cases t with
    | word text => exact hname
    | quoted q content => cases hk
    | punct b => cases hk

/-- What follows does not continue a name at the end of the tokens: no identifier stands behind a dot. -/
def Apart (s z : List Token) : Prop :=
  Starts (fun t => t.isIdentifier = true → ¬ [Token.sym '.'] <:+ s) z

/-- Tokens that the mark does not continue have no end that it would. -/
theorem Apart.of_suffix (hs : rest <:+ s) (h : Apart s z) : Apart rest z :=
  starts_imp (fun _ ht hi hdot => ht hi (hdot.trans hs)) h

/-- Tokens, a `;` and more tokens. -/
def followed (s z : List Token) : List Token := s ++ .sym ';' :: z

theorem starts_semicolon (z : List Token) : Starts IsMark (.sym ';' :: z) :=
  starts_cons isMark_semicolon

theorem apart_semicolon (s z : List Token) : Apart s (.sym ';' :: z) :=
  starts_cons fun hi => absurd hi Bool.false_ne_true

theorem followed_nil (z : List Token) : followed [] z = .sym ';' :: z := rfl

theorem followed_cons (t : Token) (s z : List Token) : followed (t :: s) z = t :: followed s z := rfl

/-- The same findings in front of a `;`. -/
def leaving {α : Type} (z : List Token) (x : α × List Token) : α × List Token :=
  (x.1, followed x.2 z)

/-- The same findings in front of more tokens. -/
def before {α : Type} (z : List Token) (x : α × List Token) : α × List Token := (x.1, x.2 ++ z)

/-! ## Single tokens -/

/-- A token that is not accepted ends the tokens just as nothing would. -/
theorem accept?_before {p : Token → Bool} (hz : Starts (fun t => p t = false) z) (s : List Token) :
    accept? p (s ++ z) = (accept? p s).map (· ++ z) := by
  cases s with
  | nil => exact accept?_stop hz
  | cons t s =>
      show (if p t = true then some (s ++ z) else none) =
        (if p t = true then some s else none).map (· ++ z)
      by_cases ht : p t = true
      · rw [if_pos ht, if_pos ht, Option.map_some]
      · rw [if_neg ht, if_neg ht, Option.map_none]

theorem acceptSym?_before {c : Char} (hc : Token.sym ';' ≠ .sym c) (hz : Starts IsMark z)
    (s : List Token) : acceptSym? c (s ++ z) = (acceptSym? c s).map (· ++ z) :=
  accept?_before (starts_imp (fun _ ht => beq_eq_false_iff_ne.mpr (ht.ne_sym hc)) hz) s

theorem acceptKeyword?_before {p : Keyword → Bool} (hp : p .UNION = false) (hz : Starts IsMark z)
    (s : List Token) : acceptKeyword? p (s ++ z) = (acceptKeyword? p s).map (· ++ z) :=
  accept?_before (starts_imp (fun _ => IsMark.isKeyword hp) hz) s

theorem skip_before {p : Token → Bool} (hz : Starts (fun t => p t = false) z) (s : List Token) :
    skip p (s ++ z) = skip p s ++ z := by
  rw [skip, skip, accept?_before hz]
  cases accept? p s <;> rfl

/-- Tokens are passed over up to the mark at most. -/
theorem skipWhile_before {p : Token → Bool} (hz : Starts (fun t => p t = false) z) (s : List Token) :
    skipWhile p (s ++ z) = skipWhile p s ++ z := by
  fun_induction skipWhile p s with
  | case1 s rest h ih =>
      rw [skipWhile_eq, accept?_before hz, h]
      exact ih
  | case2 s h => rw [skipWhile_eq, accept?_before hz, h, Option.map_none]

theorem skipKeywords_before {p : Keyword → Bool} (hp : p .UNION = false) (hz : Starts IsMark z)
    (s : List Token) : skipKeywords p (s ++ z) = skipKeywords p s ++ z :=
  skipWhile_before (starts_imp (fun _ => IsMark.isKeyword hp) hz) s

/-- Whether a query comes next is told by the tokens in front of the mark, since no query starts with one. -/
theorem startsQuery_before (hz : Starts IsMark z) (s : List Token) :
    startsQuery (s ++ z) = startsQuery s := by
  cases s with
  | cons t s => rfl
  | nil =>
      cases z with
      | nil => rfl
      | cons u z => exact (hz u rfl).isKeyword rfl

theorem startsParenthesizedQuery_before (hz : Starts IsMark z) (s : List Token) :
    startsParenthesizedQuery (s ++ z) = startsParenthesizedQuery s := by
  have hopen : Starts (fun t => (t == Token.sym '(') = false) z :=
    starts_imp (fun _ ht => beq_eq_false_iff_ne.mpr (ht.ne_sym (by decide))) hz
  rw [startsParenthesizedQuery, skipWhile_before hopen, startsQuery_before hz]
  rfl

theorem acceptSym?_followed {c : Char} (hc : (Token.sym ';' == .sym c) = false)
    (s z : List Token) : acceptSym? c (followed s z) = (acceptSym? c s).map (followed · z) :=
  acceptSym?_before (beq_eq_false_iff_ne.mp hc) (starts_semicolon z) s

theorem acceptKeyword?_followed (p : Keyword → Bool) (s z : List Token) :
    acceptKeyword? p (followed s z) = (acceptKeyword? p s).map (followed · z) :=
  accept?_before (starts_cons rfl) s

theorem skipKeywords_followed (p : Keyword → Bool) (s z : List Token) :
    skipKeywords p (followed s z) = followed (skipKeywords p s) z :=
  skipWhile_before (starts_cons rfl) s

theorem startsParenthesizedQuery_followed (s z : List Token) :
    startsParenthesizedQuery (followed s z) = startsParenthesizedQuery s :=
  startsParenthesizedQuery_before (starts_semicolon z) s

/-! ## Spans -/

/-- The number of `)` that close nothing, if every `(` is closed. -/
def closers? : List Token → Option Nat
  | [] => some 0
  | t :: rest =>
      if t = .sym '(' then
        match closers? rest with
        | some (n + 1) => some n
        | _ => none
      else if t = .sym ')' then (closers? rest).map (· + 1)
      else closers? rest

/-- Every `(` is closed. -/
def Closed (ts : List Token) : Prop := (closers? ts).isSome = true

instance (ts : List Token) : Decidable (Closed ts) := inferInstanceAs (Decidable (_ = true))

/-- Without their first token they are closed too: at most a `)` is left over. -/
theorem closed_tail (h : Closed (t :: s)) : Closed s := by
  unfold Closed closers? at h
  split at h
  · split at h
    · next hs =>
        rw [Closed, hs]
        rfl
    · cases h
  · split at h
    · rw [Option.isSome_map] at h
      exact h
    · exact h

/-- Every end of closed tokens is closed too, so readers keep this. -/
theorem closed_of_suffix (hs : rest <:+ s) (h : Closed s) : Closed rest := by
  obtain ⟨pre, rfl⟩ := hs
  induction pre with
  | nil => exact h
  | cons t pre ih => exact ih (closed_tail h)

/-- The parentheses that are closed nowhere in the tokens close what is open in front of them. -/
theorem closeSpan_of_closers? {n : Nat} (h : closers? s = some n) (depth : Nat) (z : List Token) :
    closeSpan (n + depth) (s ++ z) = (closeSpan depth z).map (s ++ ·) id := by
  have hcons : ∀ (t : Token) (s : List Token),
      ((closeSpan depth z).map (s ++ ·) id).map (t :: ·) id =
        (closeSpan depth z).map (t :: s ++ ·) id := fun _ _ => rfl
  -- On the tokens, with the number of `)` that are left over open.
  induction s generalizing n with
  | nil =>
      cases h
      rw [Nat.zero_add]
      rfl
  | cons t s ih =>
      rw [List.cons_append]
      unfold closers? at h
      by_cases ho : t = .sym '('
      · subst ho
        rw [if_pos rfl] at h
        split at h
        · next m hm =>
            cases h
            rw [closeSpan_open, ← hcons, ← ih hm, Nat.add_right_comm]
        · cases h
      · rw [if_neg ho] at h
        by_cases hc : t = .sym ')'
        · subst hc
          rw [if_pos rfl, Option.map_eq_some_iff] at h
          obtain ⟨m, hm, rfl⟩ := h
          rw [Nat.add_right_comm, closeSpan_close, ih hm, hcons]
        · rw [if_neg hc] at h
          rw [closeSpan_other ho hc, ih h, hcons]

/-- Tokens that leave no `)` over are balanced. -/
theorem balanced_of_closers? (h : closers? s = some 0) : Balanced s := by
  intro depth z
  have hspan := closeSpan_of_closers? h depth z
  rw [Nat.zero_add] at hspan
  exact hspan

/-- A span that closes inside of the tokens does not see what comes behind them. `n` of the `)` are left over,
    which is more than the depth asks for. -/
theorem closeSpan_before {n : Nat} (h : closers? s = some n) {depth : Nat} (hd : depth < n)
    (z : List Token) : closeSpan depth (s ++ z) = before z (closeSpan depth s) := by
  have hmap : ∀ (t : Token) (x : List Token × List Token),
      (before z x).map (t :: ·) id = before z (x.map (t :: ·) id) := fun _ _ => rfl
  -- On the tokens, with the depth left open: it stays below the number of `)` that are left over.
  induction s generalizing n depth with
  | nil =>
      cases h
      exact absurd hd (Nat.not_lt_zero _)
  | cons t s ih =>
      rw [List.cons_append]
      unfold closers? at h
      by_cases ho : t = .sym '('
      · subst ho
        rw [if_pos rfl] at h
        split at h
        · next m hm =>
            cases h
            rw [closeSpan_open, closeSpan_open, ih hm (Nat.succ_lt_succ hd), hmap]
        · cases h
      · rw [if_neg ho] at h
        by_cases hc : t = .sym ')'
        · subst hc
          rw [if_pos rfl, Option.map_eq_some_iff] at h
          obtain ⟨m, hm, rfl⟩ := h
          cases depth with
          | zero => rfl
          | succ depth =>
              rw [closeSpan_close, closeSpan_close, ih hm (Nat.lt_of_succ_lt_succ hd), hmap]
        · rw [if_neg hc] at h
          rw [closeSpan_other ho hc, closeSpan_other ho hc, ih h hd, hmap]

/-- A parenthesis that is closed has the same span in front of anything. -/
theorem enclosed_before (h : Closed (.sym '(' :: s)) (z : List Token) :
    enclosed (s ++ z) = before z (enclosed s) := by
  unfold Closed closers? at h
  rw [if_pos rfl] at h
  split at h
  · next n hn => exact closeSpan_before hn (Nat.succ_pos n) z
  · cases h

theorem enclosed_followed (h : Closed (.sym '(' :: s)) (z : List Token) :
    enclosed (followed s z) = leaving z (enclosed s) := enclosed_before h _

theorem closed_inside (h : Closed s) {inside : List Token} (hi : acceptSym? '(' s = some inside) :
    Closed (.sym '(' :: inside) := acceptSym?_eq_some_iff.mp hi ▸ h

/-- A span in closed tokens ends inside of them. -/
theorem skipSpan_before (hz : Starts IsMark z) (h : Closed s) :
    skipSpan (s ++ z) = skipSpan s ++ z := by
  rw [skipSpan, skipSpan, acceptSym?_before (by decide) hz]
  cases hi : acceptSym? '(' s with
  | none => rfl
  | some inside => exact congrArg Prod.snd (enclosed_before (closed_inside h hi) z)

theorem skipSpan_followed (h : Closed s) (z : List Token) :
    skipSpan (followed s z) = followed (skipSpan s) z := skipSpan_before (starts_semicolon z) h

/-! ## Names -/

/-- No part of a name reaches beyond the tokens: a dot at their end has no identifier behind it. -/
theorem dottedPart?_before (hz : Starts IsMark z) (ha : Apart s z) :
    dottedPart? (s ++ z) = (dottedPart? s).map (before z) := by
  simp only [dottedPart?, Option.bind_eq_bind]
  rw [acceptSym?_before (by decide) hz]
  cases hd : acceptSym? '.' s with
  | none => rfl
  | some rest =>
      cases rest with
      | cons t rest =>
          show (if t.isIdentifier = true then some (t, rest ++ z) else none) =
            (if t.isIdentifier = true then some (t, rest) else none).map (before z)
          by_cases ht : t.isIdentifier = true
          · rw [if_pos ht, if_pos ht]
            rfl
          · rw [if_neg ht, if_neg ht]
            rfl
      | nil =>
          -- The dot comes last, so that no identifier stands behind it.
          obtain rfl := acceptSym?_eq_some_iff.mp hd
          cases z with
          | nil => rfl
          | cons u z =>
              have hu : ¬ u.isIdentifier = true := fun hi => ha u rfl hi (List.suffix_refl _)
              exact if_neg hu

/-- So all parts of a name stand in front of the mark. -/
theorem furtherParts_before (hz : Starts IsMark z) (name : QualifiedName) (ha : Apart s z) :
    furtherParts name (s ++ z) = before z (furtherParts name s) := by
  fun_induction furtherParts name s with
  | case1 name s part rest h ih =>
      rw [furtherParts_eq, dottedPart?_before hz ha, h]
      exact ih (ha.of_suffix (dottedPart?_suffix h))
  | case2 name s h =>
      rw [furtherParts_eq, dottedPart?_before hz ha, h]
      rfl

/-- A name ends in front of the mark, and none starts with it. -/
theorem qualifiedName?_before (hz : Starts IsMark z) (ha : Apart s z) :
    qualifiedName? (s ++ z) = (qualifiedName? s).map (before z) := by
  cases s with
  | nil =>
      cases z with
      | nil => rfl
      | cons u z =>
          show (if startsName u then some (furtherParts ⟨none, u⟩ z) else none) = none
          rw [(hz u rfl).startsName, if_neg Bool.false_ne_true]
  | cons t s =>
      show (if startsName t then some (furtherParts ⟨none, t⟩ (s ++ z)) else none) =
        (if startsName t then some (furtherParts ⟨none, t⟩ s) else none).map (before z)
      rw [furtherParts_before hz _ (ha.of_suffix (List.suffix_cons t s))]
      by_cases ht : startsName t = true
      · rw [if_pos ht, if_pos ht]
        rfl
      · rw [if_neg ht, if_neg ht]
        rfl

theorem skipName_followed (s z : List Token) :
    skipName (followed s z) = followed (skipName s) z := by
  have hname := qualifiedName?_before (starts_semicolon z) (apart_semicolon s z)
  rw [skipName, skipName, followed, hname]
  cases qualifiedName? s <;> rfl

variable (env : Env (List Token)) (bound : List String)

theorem tableName?_before (hz : Starts IsMark z) (ha : Apart s z) :
    tableName? env bound (s ++ z) = (tableName? env bound s).map (before z) := by
  rw [tableName?, tableName?, qualifiedName?_before hz ha]
  cases qualifiedName? s <;> rfl

theorem tableName?_followed (s z : List Token) :
    tableName? env bound (followed s z) = (tableName? env bound s).map (leaving z) :=
  tableName?_before env bound (starts_semicolon z) (apart_semicolon s z)

theorem tableName_followed (s z : List Token) :
    tableName env bound (followed s z) = leaving z (tableName env bound s) := by
  rw [tableName, tableName, tableName?_followed]
  cases tableName? env bound s <;> rfl

/-- A list of names ends in front of a `;`, which is no comma. -/
theorem tableNames_followed (s z : List Token) :
    tableNames env bound (followed s z) = leaving z (tableNames env bound s) := by
  fun_induction tableNames env bound s with
  | case1 s h =>
      rw [tableNames_eq, tableName?_followed, h]
      rfl
  | case2 s found rest h hc =>
      rw [tableNames_eq, tableName?_followed, h]
      simp only [Option.map_some, leaving]
      rw [acceptSym?_followed rfl, hc]
      rfl
  | case3 s found rest h next hc more ih =>
      rw [tableNames_eq, tableName?_followed, h]
      simp only [Option.map_some, leaving]
      rw [acceptSym?_followed rfl, hc]
      simp only [Option.map_some]
      rw [ih]
      rfl

/-! ## Lists -/

/-- No alias is taken from behind the mark. An `AS` at the very end reads the mark as none, too. -/
theorem skipAlias_before (hz : Starts IsMark z) (s : List Token) :
    skipAlias (s ++ z) = skipAlias s ++ z := by
  cases s with
  | nil =>
      cases z with
      | nil => rfl
      | cons u z =>
          rcases hz u rfl with rfl | h
          · rfl
          · exact skipAlias_keyword (keyword?_of_isKeyword h) (by decide) z
  | cons t s =>
      rw [List.cons_append]
      cases hk : t.keyword? with
      | none =>
          rw [skipAlias_plain hk, skipAlias_plain hk]
          split <;> rfl
      | some k =>
          by_cases has : k = .AS
          · subst has
            rw [skipAlias_as hk, skipAlias_as hk]
            -- Behind `AS` one name is taken, and a mark is none.
            exact skip_before (starts_imp (fun _ => IsMark.isAlias) hz) s
          · rw [skipAlias_keyword hk has, skipAlias_keyword hk has]
            rfl

theorem skipPartition_before (hz : Starts IsMark z) (h : Closed s) :
    skipPartition (s ++ z) = skipPartition s ++ z := by
  rw [skipPartition, skipPartition, acceptKeyword?_before rfl hz]
  cases hp : acceptKeyword? (· == .PARTITION) s with
  | none => rfl
  | some rest => exact skipSpan_before hz (closed_of_suffix (accept?_suffix hp) h)

/-- The mark leads to no further table: it is neither a comma nor a join. -/
theorem nextTable?_before (hz : Starts IsMark z) (s : List Token) :
    nextTable? (s ++ z) = (nextTable? s).map (· ++ z) := by
  rw [nextTable?, nextTable?, acceptSym?_before (by decide) hz]
  cases acceptSym? ',' s with
  | some rest => rfl
  | none =>
      simp only [Option.map_none]
      rw [skipKeywords_before rfl hz, acceptKeyword?_before rfl hz]

theorem nextTable?_followed (s z : List Token) :
    nextTable? (followed s z) = (nextTable? s).map (followed · z) :=
  nextTable?_before (starts_semicolon z) s

/-! ## `WITH` clauses and openings -/

/-- A `;` does not open a body, so whichever way the reader ends, it leaves the `;`. -/
theorem openBody_followed (s z : List Token) :
    openBody (followed s z) =
      match openBody s with
      | .ok inside => .ok (followed inside z)
      | .error stop => .error (followed stop z) := by
  rw [openBody, openBody, acceptKeyword?_followed]
  cases acceptKeyword? (· == .AS) s with
  | none => rfl
  | some rest =>
      simp only [Option.map_some]
      rw [acceptSym?_followed rfl]
      cases acceptSym? '(' rest <;> rfl

/-- The body of a definition is closed by a `)` of its own. -/
theorem closed_openBody (h : Closed s) {inside : List Token} (hb : openBody s = .ok inside) :
    Closed (.sym '(' :: inside) := by
  unfold openBody at hb
  split at hb
  · cases hb
  · next rest ha =>
      split at hb
      · cases hb
      · next hp =>
          cases hb
          exact closed_inside (closed_of_suffix (accept?_suffix ha) h) hp

/-- Definitions in front of a `;` are read as if they stood alone. -/
theorem commonTables_followed (isRecursive : Bool) (h : Closed s) (z : List Token) :
    commonTables env isRecursive bound (followed s z) =
      leaving z (commonTables env isRecursive bound s) := by
  -- No definition starts with a `;`, which is no identifier.
  fun_induction commonTables env isRecursive bound s with
  | case1 bound s hn =>
      obtain rfl := next?_eq_none_iff.mp hn
      rw [commonTables_eq, followed_nil, next?_cons]
      rfl
  | case2 bound s t rest hn hi name early stop hb =>
      obtain rfl := next?_eq_some_iff.mp hn
      rw [commonTables_eq, followed_cons, next?_cons]
      simp only
      rw [if_pos hi, skipSpan_followed (closed_tail h), openBody_followed, hb]
      rfl
  | case3 bound s t rest hn hi name early late inside hb found hc =>
      obtain rfl := next?_eq_some_iff.mp hn
      have hspan := enclosed_followed
        (closed_openBody (closed_of_suffix (skipSpan_suffix rest) (closed_tail h)) hb) z
      rw [commonTables_eq, followed_cons, next?_cons]
      simp only
      rw [if_pos hi, skipSpan_followed (closed_tail h), openBody_followed, hb]
      simp only
      rw [hspan]
      simp only [leaving]
      rw [acceptSym?_followed rfl, hc]
      rfl
  | case4 bound s t rest hn hi name early late inside hb found next hc more ih =>
      obtain rfl := next?_eq_some_iff.mp hn
      have hinside := closed_openBody (closed_of_suffix (skipSpan_suffix rest) (closed_tail h)) hb
      have hspan := enclosed_followed hinside z
      have hnext : Closed next := closed_of_suffix ((accept?_suffix hc).trans
        (afterSpan_suffix inside)) (closed_tail hinside)
      rw [commonTables_eq, followed_cons, next?_cons]
      simp only
      rw [if_pos hi, skipSpan_followed (closed_tail h), openBody_followed, hb]
      simp only
      rw [hspan]
      simp only [leaving]
      rw [acceptSym?_followed rfl, hc]
      exact congrArg (fun more => (found ++ more.1, more.2)) (ih hnext)
  | case5 bound s t rest hn hi =>
      obtain rfl := next?_eq_some_iff.mp hn
      rw [commonTables_eq, followed_cons, next?_cons]
      simp only
      rw [if_neg hi]
      rfl

/-- So is a `WITH` clause as a whole. -/
theorem withClause_followed (h : Closed s) (z : List Token) :
    withClause env bound (followed s z) = leaving z (withClause env bound s) := by
  rw [withClause, withClause, acceptKeyword?_followed]
  cases hr : acceptKeyword? (· == .RECURSIVE) s with
  | none => exact commonTables_followed env bound false h z
  | some rest =>
      exact commonTables_followed env bound true (closed_of_suffix (accept?_suffix hr) h) z

/-- A keyword other than `WITH` opens the statement, if it is a command, and is not taken otherwise. -/
theorem opening_keyword {k : Keyword} (hk : t.keyword? = some k) (hw : k ≠ .WITH) (rest : List Token) :
    opening env bound (t :: rest) =
      (k.statementType?.map fun type => ⟨∅, type, rest⟩).getD ⟨∅, .unknown, t :: rest⟩ := by
  rw [opening_eq, next?_cons]
  simp only
  split
  · next heq => exact absurd (Option.some.inj (hk.symm.trans heq)) hw
  · next k' _ heq =>
      obtain rfl := Option.some.inj (hk.symm.trans heq)
      cases k.statementType? <;> rfl
  · next heq => cases hk.symm.trans heq

/-- The opening is the same, and the `;` stays behind it. -/
theorem opening_followed (henv : env.Faithful) (h : Closed s) (z : List Token) :
    opening env bound (followed s z) =
      { opening env bound s with rest := followed (opening env bound s).rest z } := by
  fun_induction opening env bound s with
  | case1 bound s hn =>
      obtain rfl := next?_eq_none_iff.mp hn
      rw [opening_eq, followed_nil, next?_cons]
      rfl
  | case2 bound s t rest hn hk clause more ih =>
      obtain rfl := next?_eq_some_iff.mp hn
      have hrest := closed_tail h
      rw [opening_eq, followed_cons, next?_cons]
      simp only [hk]
      rw [withClause_followed env bound hrest]
      simp only [leaving]
      -- The clause ends in front of the `;`, and the opening goes on behind it in
      -- tokens that are closed as well.
      rw [ih (closed_of_suffix (suffix_of_reads (withClause_reads henv bound rest)) hrest)]
  | case3 bound s t rest hn k hw hk type ht =>
      obtain rfl := next?_eq_some_iff.mp hn
      rw [followed_cons, opening_keyword env bound hk hw, ht]
      rfl
  | case4 bound s t rest hn k hw hk ht =>
      obtain rfl := next?_eq_some_iff.mp hn
      rw [followed_cons, opening_keyword env bound hk hw, ht]
      rfl
  | case5 bound s t rest hn hk hq =>
      obtain rfl := next?_eq_some_iff.mp hn
      rw [opening_eq, followed_cons, next?_cons]
      simp only [hk]
      rw [if_pos ⟨hq.1, (startsParenthesizedQuery_followed _ z).trans hq.2⟩]
  | case6 bound s t rest hn hk hq =>
      obtain rfl := next?_eq_some_iff.mp hn
      rw [opening_eq, followed_cons, next?_cons]
      simp only [hk]
      rw [if_neg fun hq' => hq ⟨hq'.1, (startsParenthesizedQuery_followed _ z).symm.trans hq'.2⟩]

end SqlTables
