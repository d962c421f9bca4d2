import SqlTables.Proofs.Parenthesized

/-!
# `SqlTables.Proofs.Command` — a type that is detected is final

The command of a statement is a word, and everything that is read in front of it ends there: a `WITH` clause
looks no further than at the token behind it, and parentheses in front of a query are looked through
only up to its first word. So the command stays when the text goes on, even inside a quoted text or
a comment that is still open.

## Contents
- **`StopsAt`**: a reader that looks no further than at the first token of what it leaves.
- **`WITH` clauses**: `skipSpan_stopsAt` up to `withClause_stopsAt`.
- **`DecidedBy`** and `decidedBy_command`: the word that decides the command.
- **`tokens_onNewLine_word`**: the tokens up to a word, in front of a new line.
- **`parse_type_final`**: whole statements.
-/

namespace SqlTables

open TokenSource Grammar

variable {s rest m : List Token} {t : Token}

/-! ## Readers that look no further -/

/-- The reader leaves `rest` of `s`, in the form that `wrap` gives it, and would leave anything else there
    that starts with the same token. -/
def StopsAt {α : Type} (f wrap : List Token → α) (s rest : List Token) : Prop :=
  ∃ a, s = a ++ rest ∧ ∀ r, r.head? = rest.head? → f (a ++ r) = wrap r

/-- What is behind a common part starts with the same token on both sides. -/
theorem head?_append_congr {a r r' : List Token} (h : r.head? = r'.head?) :
    (a ++ r).head? = (a ++ r').head? := by
  rw [List.head?_append, List.head?_append, h]

theorem stopsAt_self {α : Type} {f wrap : List Token → α}
    (h : ∀ r, r.head? = s.head? → f r = wrap r) : StopsAt f wrap s s :=
  ⟨[], rfl, h⟩

/-- One reader behind another. -/
theorem StopsAt.trans {α β : Type} {f wrap : List Token → α} {k : α → β} {wrap' : List Token → β}
    (hf : StopsAt f wrap s m) (hk : StopsAt (fun u => k (wrap u)) wrap' m rest) :
    StopsAt (fun u => k (f u)) wrap' s rest := by
  obtain ⟨a, rfl, ha⟩ := hf
  obtain ⟨b, rfl, hb⟩ := hk
  refine ⟨a ++ b, (List.append_assoc a b rest).symm, ?_⟩
  intro r hr
  simp only [List.append_assoc]
  rw [ha _ (head?_append_congr hr)]
  exact hb r hr

/-- What is made of the result does not matter. -/
theorem StopsAt.map {α β : Type} {f wrap : List Token → α} (k : α → β) (hf : StopsAt f wrap s rest) :
    StopsAt (fun u => k (f u)) (fun u => k (wrap u)) s rest :=
  hf.trans (stopsAt_self fun _ _ => rfl)

/-- A reader that takes a token first. -/
theorem StopsAt.cons {α : Type} {f g wrap : List Token → α} (ht : ∀ u, f (t :: u) = g u)
    (hg : StopsAt g wrap s rest) : StopsAt f wrap (t :: s) rest := by
  obtain ⟨a, rfl, ha⟩ := hg
  refine ⟨t :: a, rfl, ?_⟩
  intro r hr
  rw [List.cons_append, ht]
  exact ha r hr

/-! ## `WITH` clauses -/

/-- The end of a parenthesis that is closed does not depend on what follows it. -/
theorem closeSpan_stopsAt {depth : Nat} (h : (closeSpan depth s).2 ≠ []) :
    StopsAt (fun s => (closeSpan depth s).2) id s (closeSpan depth s).2 := by
  fun_induction closeSpan depth s with
  | case1 depth => exact absurd rfl h
  | case2 depth rest ih =>
      exact (ih h).cons fun u => by rw [closeSpan_open]; rfl
  | case3 rest => exact ⟨[.sym ')'], rfl, fun r _ => rfl⟩
  | case4 rest _ outer ih =>
      exact (ih h).cons fun u => by rw [closeSpan_close]; rfl
  | case5 depth t rest ho hc ih =>
      exact (ih h).cons fun u => by rw [closeSpan_other ho hc]; rfl

/-- That a token is not accepted is told by this token alone. -/
theorem accept?_congr_none {p : Token → Bool} (h : accept? p s = none) {r : List Token}
    (hr : r.head? = s.head?) : accept? p r = none := by
  cases s with
  | nil =>
      rw [List.head?_eq_none_iff.mp hr]
      rfl
  | cons t s =>
      cases r with
      | nil => cases hr
      | cons u r =>
          obtain rfl : u = t := Option.some.inj hr
          have hp : ¬ p u = true := by
            intro hp
            rw [accept?_cons hp] at h
            cases h
          show (if p u = true then some r else none) = none
          rw [if_neg hp]

/-- A span that is passed over ends at its `)`, and where none opens nothing is read. Behind an unclosed one
    nothing would be left. -/
theorem skipSpan_stopsAt (h : skipSpan s ≠ []) : StopsAt skipSpan id s (skipSpan s) := by
  unfold skipSpan at h ⊢
  cases hopen : acceptSym? '(' s with
  | none =>
      refine stopsAt_self ?_
      intro r hr
      have hnone : acceptSym? '(' r = none := accept?_congr_none hopen hr
      rw [hnone]
      rfl
  | some inside =>
      rw [hopen] at h
      rw [acceptSym?_eq_some_iff.mp hopen]
      exact (closeSpan_stopsAt h).cons fun u => rfl

/-- `AS (` is read without a look at what follows. -/
theorem openBody_stopsAt {inside : List Token} (h : openBody s = .ok inside) :
    StopsAt openBody .ok s inside := by
  unfold openBody at h
  cases has : acceptKeyword? (· == .AS) s with
  | none =>
      rw [has] at h
      cases h
  | some rest =>
      rw [has] at h
      simp only at h
      cases hopen : acceptSym? '(' rest with
      | none =>
          rw [hopen] at h
          cases h
      | some r =>
          rw [hopen] at h
          cases h
          obtain ⟨as, hk, rfl⟩ := accept?_eq_some_iff.mp has
          rw [acceptSym?_eq_some_iff.mp hopen]
          -- Both tokens have been read, and nothing behind them decides.
          refine ⟨[as, .sym '('], rfl, ?_⟩
          intro r _
          show openBody (as :: .sym '(' :: r) = .ok r
          rw [openBody, acceptKeyword?_cons hk]
          rfl

/-- Where `AS (` is missing, the reader has looked no further than at the token that it met instead. -/
theorem openBody_error_stopsAt {stop : List Token} (h : openBody s = .error stop) :
    StopsAt openBody .error s stop := by
  unfold openBody at h
  -- Either `AS` is missing, or the parenthesis behind it.
  cases has : acceptKeyword? (· == .AS) s with
  | none =>
      rw [has] at h
      cases h
      refine stopsAt_self ?_
      intro r hr
      have hnone : acceptKeyword? (· == .AS) r = none := accept?_congr_none has hr
      rw [openBody, hnone]
  | some rest =>
      rw [has] at h
      simp only at h
      cases hopen : acceptSym? '(' rest with
      | none =>
          rw [hopen] at h
          cases h
          obtain ⟨as, hk, rfl⟩ := accept?_eq_some_iff.mp has
          refine ⟨[as], rfl, ?_⟩
          intro r hr
          have hnone : acceptSym? '(' r = none := accept?_congr_none hopen hr
          show openBody (as :: r) = .error r
          rw [openBody, acceptKeyword?_cons hk]
          simp only
          rw [hnone]
      | some r =>
          rw [hopen] at h
          cases h

/-- What a `WITH` clause leaves, whatever it finds. -/
def afterTables (isRecursive : Bool) (s : List Token) : List Token :=
  (commonTables .blind isRecursive [] s).2

/-- What a clause leaves behind the body of a definition. -/
def afterBody (isRecursive : Bool) (s : List Token) : List Token :=
  match acceptSym? ',' s with
  | none => s
  | some next => afterTables isRecursive next

/-- What a clause leaves behind the definition whose body starts here. -/
def afterDefinition (isRecursive : Bool) : Except (List Token) (List Token) → List Token
  | .error stop => stop
  | .ok inside => afterBody isRecursive (enclosed inside).2

/-- A definition ends where the one behind it would start, whatever names are bound. -/
theorem afterTables_cons {isRecursive : Bool} (ht : t.isIdentifier = true) (u : List Token) :
    afterTables isRecursive (t :: u) = afterDefinition isRecursive (openBody (skipSpan u)) := by
  unfold afterTables afterDefinition afterBody
  rw [commonTables_eq, next?_cons]
  simp only
  rw [if_pos ht]
  cases openBody (skipSpan u) with
  | error stop => rfl
  | ok inside =>
      simp only
      cases acceptSym? ',' (enclosed inside).2 with
      | none => rfl
      | some next => exact rest_commonTables .blind .blind isRecursive _ [] next

theorem afterTables_stop {isRecursive : Bool} (ht : t.isIdentifier = false) (u : List Token) :
    afterTables isRecursive (t :: u) = t :: u := by
  unfold afterTables
  rw [commonTables_eq, next?_cons]
  simp only
  rw [if_neg (by rw [ht]; exact Bool.false_ne_true)]

@[simp] theorem afterTables_nil {isRecursive : Bool} : afterTables isRecursive [] = [] := by
  unfold afterTables
  rw [commonTables_eq]
  rfl

/-- Behind a body either a comma leads to further definitions, or the clause ends in front of the token that
    is no comma. -/
theorem afterBody_stopsAt {isRecursive : Bool} (h : afterBody isRecursive s ≠ [])
    (ih : ∀ next, s = .sym ',' :: next → afterTables isRecursive next ≠ [] →
      StopsAt (afterTables isRecursive) id next (afterTables isRecursive next)) :
    StopsAt (afterBody isRecursive) id s (afterBody isRecursive s) := by
  unfold afterBody at h ⊢
  cases hcomma : acceptSym? ',' s with
  | none =>
      refine stopsAt_self ?_
      intro r hr
      have hnone : acceptSym? ',' r = none := accept?_congr_none hcomma hr
      rw [hnone]
      rfl
  | some next =>
      rw [hcomma] at h
      have hs : s = .sym ',' :: next := acceptSym?_eq_some_iff.mp hcomma
      rw [hs]
      exact (ih next hs h).cons fun u => rfl

/-- A list of definitions looks no further than at the token behind it, provided that there is one. -/
theorem afterTables_stopsAt {isRecursive : Bool} (h : afterTables isRecursive s ≠ []) :
    StopsAt (afterTables isRecursive) id s (afterTables isRecursive s) := by
  -- On the number of tokens: each definition is followed by fewer of them.
  generalize hn : s.length = n
  induction n using Nat.strongRecOn generalizing s with
  | ind n ih =>
      cases s with
      | nil => exact absurd afterTables_nil h
      | cons t u =>
          by_cases ht : t.isIdentifier = true
          · rw [afterTables_cons ht] at h ⊢
            refine StopsAt.cons (afterTables_cons ht) ?_
            have hspan : StopsAt skipSpan id u (skipSpan u) := by
              apply skipSpan_stopsAt
              intro hnil
              rw [hnil] at h
              exact h rfl
            cases hbody : openBody (skipSpan u) with
            | error stop =>
                have hstop : StopsAt (fun u => openBody (skipSpan u)) .error u stop :=
                  hspan.trans (k := openBody) (openBody_error_stopsAt hbody)
                exact hstop.map (afterDefinition isRecursive)
            | ok inside =>
                rw [hbody] at h
                have hopen : StopsAt (fun u => openBody (skipSpan u)) .ok u inside :=
                  hspan.trans (k := openBody) (openBody_stopsAt hbody)
                have hclose : StopsAt (fun s => (enclosed s).2) id inside (enclosed inside).2 := by
                  apply closeSpan_stopsAt
                  intro hnil
                  apply h
                  show afterBody isRecursive (closeSpan 0 inside).2 = []
                  rw [hnil]
                  rfl
                have hafter : StopsAt (afterBody isRecursive) id (enclosed inside).2
                    (afterBody isRecursive (enclosed inside).2) := by
                  apply afterBody_stopsAt h
                  intro next hnext hne
                  refine ih next.length ?_ hne rfl
                  have hinside : inside.length < (skipSpan u).length := size_openBody_ok hbody
                  have hskip : (skipSpan u).length ≤ u.length := size_skipSpan_le u
                  have hend : (enclosed inside).2.length ≤ inside.length := size_afterSpan_le inside
                  rw [hnext] at hend
                  simp only [List.length_cons] at hend hn
                  omega
                exact hopen.trans (k := afterDefinition isRecursive)
                  (hclose.trans (k := afterBody isRecursive) hafter)
          · rw [Bool.not_eq_true] at ht
            rw [afterTables_stop ht]
            refine stopsAt_self ?_
            intro r hr
            cases r with
            | nil => cases hr
            | cons t' r =>
                obtain rfl : t' = t := Option.some.inj hr
                exact afterTables_stop ht r

/-- What a `WITH` clause leaves, with `RECURSIVE` or without. -/
def afterWith (s : List Token) : List Token := (withClause .blind [] s).2

theorem afterWith_eq (s : List Token) :
    afterWith s = match acceptKeyword? (· == .RECURSIVE) s with
      | some rest => afterTables true rest
      | none => afterTables false s := by
  unfold afterWith withClause
  cases acceptKeyword? (· == .RECURSIVE) s <;> rfl

/-- A `WITH` clause looks no further than at the token behind it. An empty clause has looked at this token
    twice, for `RECURSIVE` and for a name. -/
theorem afterWith_stopsAt (h : afterWith s ≠ []) : StopsAt afterWith id s (afterWith s) := by
  rw [afterWith_eq] at h ⊢
  cases hr : acceptKeyword? (· == .RECURSIVE) s with
  | some rest =>
      rw [hr] at h
      obtain ⟨t, ht, rfl⟩ := accept?_eq_some_iff.mp hr
      refine (afterTables_stopsAt h).cons ?_
      intro u
      rw [afterWith_eq, acceptKeyword?_cons ht]
  | none =>
      rw [hr] at h
      obtain ⟨a, hs, ha⟩ := afterTables_stopsAt h
      refine ⟨a, hs, ?_⟩
      intro r hhead
      -- Where the clause is empty, what follows it starts as the statement did.
      have hnone : acceptKeyword? (· == .RECURSIVE) (a ++ r) = none := by
        apply accept?_congr_none hr
        rw [head?_append_congr hhead]
        exact congrArg List.head? hs.symm
      rw [afterWith_eq, hnone]
      exact ha r hhead

/-! ## The command -/

@[simp] theorem command_nil : command ([] : List Token) = .unknown := by
  rw [command, opening_eq]
  rfl

/-- The command stands behind the clauses in front of it. -/
theorem command_with (ht : t.keyword? = some .WITH) (rest : List Token) :
    command (t :: rest) = command (afterWith rest) := by
  rw [command, opening_eq, next?_cons]
  simp only [ht]
  exact type_opening_eq_command .blind _ _

theorem command_keyword {k : Keyword} (ht : t.keyword? = some k) (hk : k ≠ .WITH) (rest : List Token) :
    command (t :: rest) = k.statementType?.getD .unknown := by
  rw [command, opening_keyword .blind [] ht hk]
  cases k.statementType? <;> rfl

/-- What is no keyword opens a statement only as the parenthesis in front of a query. -/
theorem command_plain (ht : t.keyword? = none) (rest : List Token) :
    command (t :: rest) =
      if t = .sym '(' ∧ startsParenthesizedQuery (t :: rest) = true then .select else .unknown := by
  rw [command, opening_eq, next?_cons]
  simp only [ht]
  split <;> rfl

/-- The command does not change behind one of the words. -/
def DecidedBy (front : List Token) (word : Bytes) (s : List Token) : Prop :=
  front ++ [.word word] <+: s ∧ ∀ z, front ++ [.word word] <+: z → command z = command s

/-- The same with what follows the word spelled out. -/
theorem decidedBy_iff {front : List Token} {word : Bytes} :
    DecidedBy front word s ↔ ∃ rest, s = front ++ .word word :: rest ∧
      ∀ z, command (front ++ .word word :: z) = command s := by
  constructor
  · rintro ⟨⟨rest, rfl⟩, hz⟩
    refine ⟨rest, List.append_assoc _ _ _, ?_⟩
    intro z
    apply hz
    exact ⟨z, List.append_assoc _ _ _⟩
  · rintro ⟨rest, rfl, hz⟩
    refine ⟨⟨rest, List.append_assoc _ _ _⟩, ?_⟩
    rintro _ ⟨z, rfl⟩
    rw [List.append_assoc]
    exact hz z

/-- Only an unquoted word can be a keyword. -/
theorem word_of_keyword? {k : Keyword} (ht : t.keyword? = some k) : ∃ word, t = .word word := by
  cases t with
  | word text => exact ⟨text, rfl⟩
  | quoted q content => cases ht
  | punct b => cases ht

/-- Behind its parentheses a query starts with a word. -/
theorem word_of_startsParenthesizedQuery (h : startsParenthesizedQuery s = true) :
    ∃ front word rest, s = front ++ .word word :: rest ∧
      ∀ z, startsParenthesizedQuery (front ++ .word word :: z) = true := by
  -- On the tokens: each parenthesis is passed, and the first other token is the word.
  induction s with
  | nil =>
      rw [startsParenthesizedQuery, skipWhile_eq] at h
      cases h
  | cons t s ih =>
      by_cases ht : t = .sym '('
      · subst ht
        rw [startsParenthesizedQuery_open] at h
        obtain ⟨front, word, rest, rfl, hz⟩ := ih h
        refine ⟨.sym '(' :: front, word, rest, rfl, ?_⟩
        intro z
        rw [List.cons_append, startsParenthesizedQuery_open]
        exact hz z
      · have hopen : Starts (fun t => (t == Token.sym '(') = false) (t :: s) :=
          starts_cons (beq_eq_false_iff_ne.mpr ht)
        rw [startsParenthesizedQuery, skipWhile_eq, accept?_stop hopen] at h
        have hquery : t.isKeyword Keyword.startsQuery = true := h
        obtain ⟨k, hk, -⟩ := (Option.any_eq_true _ _).mp hquery
        obtain ⟨word, rfl⟩ := word_of_keyword? hk
        exact ⟨[], word, s, rfl, startsParenthesizedQuery_keyword hquery⟩

/-- A command that is known is decided by a word. -/
theorem decidedBy_command (h : command s ≠ .unknown) : ∃ front word, DecidedBy front word s := by
  simp only [decidedBy_iff]
  -- On the number of tokens: a clause leaves fewer of them to the next one.
  generalize hn : s.length = n
  induction n using Nat.strongRecOn generalizing s with
  | ind n ih =>
      cases s with
      | nil => exact absurd command_nil h
      | cons t rest =>
          cases hk : t.keyword? with
          | none =>
              rw [command_plain hk] at h ⊢
              by_cases hquery : t = .sym '(' ∧ startsParenthesizedQuery (t :: rest) = true
              · obtain ⟨rfl, hstart⟩ := hquery
                obtain ⟨front, word, more, hs, hz⟩ := word_of_startsParenthesizedQuery hstart
                refine ⟨front, word, more, hs, ?_⟩
                intro z
                rw [if_pos ⟨rfl, hstart⟩]
                cases front with
                | nil => cases hs
                | cons u front =>
                    obtain rfl : Token.sym '(' = u := (List.cons.inj hs).1
                    exact command_bareQuery (.parenthesized (hz z))
              · rw [if_neg hquery] at h
                exact absurd rfl h
          | some k =>
              by_cases hwith : k = .WITH
              · subst hwith
                rw [command_with hk] at h ⊢
                have hsize : (afterWith rest).length ≤ rest.length := size_withClause_le .blind [] rest
                have hless : (afterWith rest).length < n := by
                  rw [← hn, List.length_cons]
                  omega
                obtain ⟨front, word, more, hs, hz⟩ := ih _ hless h rfl
                have hne : afterWith rest ≠ [] := by
                  intro hnil
                  rw [hnil] at h
                  exact h command_nil
                obtain ⟨a, hrest, ha⟩ := afterWith_stopsAt hne
                refine ⟨t :: (a ++ front), word, more, ?_, ?_⟩
                · rw [hrest, hs]
                  simp only [List.cons_append, List.append_assoc]
                · intro z
                  rw [List.cons_append, command_with hk, List.append_assoc, ha]
                  · exact hz z
                  · rw [hs]
                    simp only [List.head?_append, List.head?_cons]
              · obtain ⟨word, rfl⟩ := word_of_keyword? hk
                refine ⟨[], word, rest, rfl, ?_⟩
                intro z
                rw [List.nil_append, command_keyword hk hwith, command_keyword hk hwith]

/-! ## Texts that go on -/

variable {text : Bytes}

/-- A stretch of bytes that a new line ends is the same whatever stands on the next line. -/
theorem takeWhile_onNewLine {p : UInt8 → Bool} (hp : p '\n'.toUInt8 = false) (a z : Bytes) :
    (onNewLine a z).takeWhile p = a.takeWhile p ∧
      (onNewLine a z).dropWhile p = onNewLine (a.dropWhile p) z := by
  induction a with
  | nil =>
      have hline : onNewLine [] z = '\n'.toUInt8 :: z := rfl
      simp [hline, hp]
  | cons b a ih =>
      rw [onNewLine_cons]
      by_cases hb : p b = true
      · simp only [List.takeWhile_cons_of_pos hb, List.dropWhile_cons_of_pos hb, ih, and_self]
      · simp only [List.takeWhile_cons_of_neg hb, List.dropWhile_cons_of_neg hb, onNewLine_cons,
          and_self]

/-- A word ends where the line does. -/
theorem nextToken?_word_onNewLine {word rest : Bytes}
    (h : text.nextToken? = some (.word word, rest)) (z : Bytes) :
    (onNewLine text z).nextToken? = some (.word word, onNewLine rest z) := by
  unfold Bytes.nextToken? at h
  cases hs : skipGap text with
  | nil =>
      rw [hs] at h
      cases h
  | cons b tail =>
      rw [hs] at h
      simp only at h
      cases hq : Quote.ofByte? b with
      | some q =>
          rw [hq] at h
          cases h
      | none =>
          rw [hq] at h
          simp only at h
          by_cases hw : isWordByte b = true
          · rw [if_pos hw] at h
            cases h
            -- A byte of a word opens no comment, so the gap in front of it
            -- ends here also in the longer text.
            have hgap : skipGap (onNewLine text z) = b :: onNewLine tail z :=
              skipGap_append hs (Or.inr (not_opensComment_of_isWordByte hw)) _
            obtain ⟨htake, hdrop⟩ := takeWhile_onNewLine (p := isWordByte) (by decide) tail z
            rw [Bytes.nextToken?, hgap]
            simp only [hq, if_pos hw, htake, hdrop]
          · rw [if_neg hw] at h
            cases h

/-- The tokens up to a word stay where they are, whatever is open behind it. -/
theorem tokens_onNewLine_word {front : List Token} {word : Bytes}
    (h : front ++ [.word word] <+: text.tokens) (z : Bytes) :
    front ++ [.word word] <+: (onNewLine text z).tokens := by
  induction front generalizing text with
  | nil =>
      obtain ⟨rest, hrest⟩ := h
      cases hnext : text.nextToken? with
      | none =>
          rw [tokens_of_nextToken?_none hnext] at hrest
          cases hrest
      | some r =>
          rw [tokens_of_nextToken? hnext] at hrest
          obtain ⟨hword, -⟩ := List.cons.inj hrest
          have hr : text.nextToken? = some (.word word, r.2) := by
            rw [hnext, hword]
          rw [tokens_of_nextToken? (nextToken?_word_onNewLine hr z)]
          exact ⟨_, rfl⟩
  | cons t front ih =>
      obtain ⟨rest, hrest⟩ := h
      cases hnext : text.nextToken? with
      | none =>
          rw [tokens_of_nextToken?_none hnext] at hrest
          cases hrest
      | some r =>
          rw [tokens_of_nextToken? hnext] at hrest
          obtain ⟨rfl, htail⟩ := List.cons.inj hrest
          -- Another token follows, so the text goes on behind this one.
          have hne : r.2 ≠ [] := by
            intro hnil
            rw [hnil, tokens_nil] at htail
            simp at htail
          have hr : (onNewLine text z).nextToken? = some (r.1, onNewLine r.2 z) :=
            nextToken?_append hnext (Or.inl hne) _
          rw [tokens_of_nextToken? hr]
          exact List.cons_prefix_cons.mpr ⟨rfl, ih ⟨rest, htail⟩⟩

/-! ## Whole statements -/

/-- **A detected type is final.** Where a type is found, one word of the text decides it: every text whose
    tokens are the same up to that word has this type under all options, and so has the text with anything
    on a new line behind it, whatever it leaves open. -/
theorem parse_type_final {options : Options} (h : (parse options text).type ≠ .unknown) :
    (∃ front word, front ++ [.word word] <+: text.tokens ∧
      ∀ (options' : Options) (text' : Bytes), front ++ [.word word] <+: text'.tokens →
        (parse options' text').type = (parse options text).type) ∧
    ∀ (options' : Options) (more : Bytes),
      (parse options' (onNewLine text more)).type = (parse options text).type := by
  simp only [parse_eq_tokens] at h ⊢
  obtain ⟨front, word, hprefix, hsame⟩ := decidedBy_command h
  refine ⟨⟨front, word, hprefix, fun _ text' htext => hsame _ htext⟩, ?_⟩
  intro options' more
  apply hsame
  exact tokens_onNewLine_word hprefix more

/-- The comment that hides the end of the first text hides what is put behind it, too. -/
theorem parse_type_final_open :
    let text := ascii "WITH RECURSIVE c (x) AS (SELECT ')' FROM t) (/* ( */(SELECT a FROM c /* WHERE"
    let more := ascii "DELETE FROM u"
    (parse {} text).type = .select ∧
      ∀ options, (parse options (onNewLine text more)).type = .select := by
  intro text more
  have htype : (parse {} text).type = .select := by decide +kernel
  have hne : (parse {} text).type ≠ .unknown := by
    rw [htype]
    decide
  refine ⟨htype, ?_⟩
  intro options
  rw [← htype]
  exact (parse_type_final hne).2 options more

end SqlTables
