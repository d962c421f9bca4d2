import SqlTables.Proofs.Token.Suffix
import SqlTables.Proofs.Token.Tracks

/-!
# `SqlTables.Proofs.TablePosition.Position` — where a table may be named

Which tokens may start the name of a table is told by the tokens in front of them: a word such as `FROM`,
the command of a data change, a parenthesis around tables, or a comma behind another table, unless a
clause has begun in between at the level of both.

Tokens that are read at one level of parentheses stand at positions of the whole statement. Reading on
from one of them keeps the level: only a parenthesis as a whole is passed at once.

## Contents
- **`openBefore`** and **`innermost?`**: the parentheses that are open at a position.
- **`InTablePosition`**: the positions of names.
- **`At`**: tokens of one level, with `At.tail` and `At.span`.
- **`Quiet`**: a stretch of a level in which no clause begins.
-/

namespace SqlTables

open TokenSource

/-! ## Open parentheses -/

/-- The positions of the parentheses that are open in front of a position, the innermost one first. A
    `)` that closes nothing counts for nothing. -/
def openBefore (ts : List Token) : Nat → List Nat
  | 0 => []
  | i + 1 =>
      if ts[i]? = some (.sym '(') then i :: openBefore ts i
      else if ts[i]? = some (.sym ')') then (openBefore ts i).tail
      else openBefore ts i

/-- The innermost parenthesis around a position. -/
def innermost? (ts : List Token) (i : Nat) : Option Nat := (openBefore ts i).head?

variable {type : StatementType} {ts s rest inside : List Token} {level : List Nat} {t : Token}
  {i j k stop : Nat}

theorem openBefore_open (h : ts[i]? = some (.sym '(')) :
    openBefore ts (i + 1) = i :: openBefore ts i := by
  rw [openBefore, if_pos h]

/-- A `)` closes the innermost parenthesis, if there is one. -/
theorem openBefore_close (h : ts[i]? = some (.sym ')')) :
    openBefore ts (i + 1) = (openBefore ts i).tail := by
  have hne : ts[i]? ≠ some (.sym '(') := by
    rw [h]
    decide
  rw [openBefore, if_neg hne, if_pos h]

/-- Any other token leaves the open parentheses as they are. -/
theorem openBefore_other (h : ts[i]? = some t) (ho : t ≠ .sym '(') (hc : t ≠ .sym ')') :
    openBefore ts (i + 1) = openBefore ts i := by
  have hne : ∀ {u : Token}, t ≠ u → ts[i]? ≠ some u := by
    intro u hu he
    exact hu (Option.some.inj (h.symm.trans he))
  rw [openBefore, if_neg (hne ho), if_neg (hne hc)]

/-- An open parenthesis stands in front of the position. -/
theorem lt_of_mem_openBefore (h : j ∈ openBefore ts i) : j < i := by
  induction i with
  | zero => cases h
  | succ i ih =>
      rw [openBefore] at h
      split at h
      · rcases List.mem_cons.mp h with rfl | hmem
        · exact Nat.lt_succ_self _
        · exact Nat.lt_succ_of_lt (ih hmem)
      · split at h
        · exact Nat.lt_succ_of_lt (ih (List.mem_of_mem_tail h))
        · exact Nat.lt_succ_of_lt (ih h)

/-- The further inside a parenthesis stands, the further behind it was opened. -/
theorem openBefore_pairwise (ts : List Token) (i : Nat) : (openBefore ts i).Pairwise (· > ·) := by
  induction i with
  | zero => exact .nil
  | succ i ih =>
      rw [openBefore]
      split
      · exact List.pairwise_cons.mpr ⟨fun _ hmem => lt_of_mem_openBefore hmem, ih⟩
      · split
        · exact ih.sublist (List.tail_sublist _)
        · exact ih

/-- Inside a parenthesis the innermost one is none of those around it. -/
theorem innermost?_ne (hlevel : openBefore ts i = level) (h : i :: level <:+ openBefore ts k) :
    innermost? ts k ≠ level.head? := by
  have hbefore : ∀ j ∈ level, j < i := by
    intro j hj
    rw [← hlevel] at hj
    exact lt_of_mem_openBefore hj
  obtain ⟨inner, hinner⟩ := h
  intro he
  rw [innermost?, ← hinner] at he
  cases inner with
  | nil =>
      have hmem := List.mem_of_mem_head? he.symm
      exact Nat.lt_irrefl _ (hbefore i hmem)
  | cons p inner =>
      have hmem := List.mem_of_mem_head? he.symm
      have hsorted := openBefore_pairwise ts k
      rw [← hinner, List.cons_append] at hsorted
      have hgt : p > i := (List.pairwise_cons.mp hsorted).1 i (List.mem_append_right _ List.mem_cons_self)
      exact Nat.lt_asymm hgt (hbefore p hmem)

/-! ## The positions of names -/

/-- Words that begin a clause in which no table is named. -/
def Keyword.beginsClause : Keyword → Bool
  | .WHERE | .ON | .SET | .GROUP | .ORDER | .HAVING | .LIMIT | .UNION | .VALUES => true
  | _ => false

/-- Words behind which a table is named. -/
def Keyword.announcesTable (type : StatementType) : Keyword → Bool
  | .FROM | .JOIN | .STRAIGHT_JOIN => true
  | .USING => type == .delete
  | _ => false

/-- Words that may stand between the command of a data change and its table. -/
def StatementType.modifiers? : StatementType → Option (Keyword → Bool)
  | .insert | .replace => some Keyword.isInsertModifier
  | .update => some Keyword.isUpdateModifier
  | _ => none

/-- A clause begins at the position. Behind a dot the word is part of a name. -/
def BeginsClauseAt (ts : List Token) (i : Nat) : Prop :=
  (∃ t, ts[i]? = some t ∧ t.isKeyword Keyword.beginsClause = true) ∧
    ∀ j, i = j + 1 → ts[j]? ≠ some (.sym '.')

/-- The positions at which a table may be named in a statement of a type, told by the token in front
    of them. -/
inductive InTablePosition (type : StatementType) (ts : List Token) : Nat → Prop where
  | behindWord {i : Nat} {t : Token} : ts[i]? = some t → t.isKeyword (Keyword.announcesTable type) = true →
      InTablePosition type ts (i + 1)
  /-- Behind the command of a data change and all its modifiers. -/
  | behindCommand {command : Token} {run rest : List Token} {p : Keyword → Bool} :
      ts = command :: (run ++ rest) →
      command.keyword?.bind Keyword.statementType? = some type → type.modifiers? = some p →
      (∀ t ∈ run, t.isKeyword p = true) → (∀ t ∈ rest.head?, t.isKeyword p = false) →
      InTablePosition type ts (run.length + 1)
  | behindParen {i : Nat} : InTablePosition type ts i → ts[i]? = some (.sym '(') →
      InTablePosition type ts (i + 1)
  /-- Behind a comma, if a position in front of it lies in the same parenthesis and no clause begins
      there between both. -/
  | behindComma {h i : Nat} : InTablePosition type ts h → h < i → ts[i]? = some (.sym ',') →
      innermost? ts h = innermost? ts i →
      (∀ j, h ≤ j → j < i → innermost? ts j = innermost? ts i → ¬ BeginsClauseAt ts j) →
      InTablePosition type ts (i + 1)

/-! ## Tokens of one level -/

/-- The tokens `s` stand from position `i` up to `stop`, inside the parentheses `level`. Where nothing
    is left of them it does not matter what is open. -/
structure At (ts : List Token) (stop : Nat) (level : List Nat) (i : Nat) (s : List Token) : Prop where
  stop_eq : i + s.length = stop
  stands : s <+: ts.drop i
  level_eq : s ≠ [] → openBefore ts i = level
  inside : ∀ k, i ≤ k → k < stop → level <:+ openBefore ts k

theorem at_start (ts : List Token) : At ts ts.length [] 0 ts where
  stop_eq := Nat.zero_add _
  stands := List.prefix_refl ts
  level_eq _ := rfl
  inside _ _ _ := List.nil_suffix

/-- The token in front is the one at the position. -/
theorem getElem?_of_stands (h : t :: rest <+: ts.drop i) : ts[i]? = some t := by
  obtain ⟨z, hz⟩ := h
  have hget : (ts.drop i)[0]? = some t := by
    rw [← hz]
    rfl
  rw [List.getElem?_drop] at hget
  exact hget

theorem stands_tail (h : t :: rest <+: ts.drop i) : rest <+: ts.drop (i + 1) := by
  obtain ⟨z, hz⟩ := h
  rw [← List.drop_drop, ← hz]
  exact List.prefix_append rest z

namespace At

theorem token (h : At ts stop level i (t :: rest)) : ts[i]? = some t := getElem?_of_stands h.stands

theorem mem (h : At ts stop level i (t :: rest)) : t ∈ ts := List.mem_of_getElem? h.token

theorem innermost (h : At ts stop level i (t :: rest)) : innermost? ts i = level.head? := by
  rw [innermost?, h.level_eq (List.cons_ne_nil t rest)]

theorem le_stop (h : At ts stop level i s) : i ≤ stop := h.stop_eq ▸ Nat.le_add_right i _

/-- Where a token is left, the innermost parenthesis is that of the level. -/
theorem innermost_of_lt (h : At ts stop level i s) (hlt : i < stop) :
    innermost? ts i = level.head? := by
  cases s with
  | nil =>
      have hstop := h.stop_eq
      rw [List.length_nil] at hstop
      omega
  | cons t rest => exact h.innermost

/-- Behind all tokens nothing is left. -/
theorem nil (ts : List Token) (stop : Nat) (level : List Nat) : At ts stop level stop [] where
  stop_eq := Nat.add_zero _
  stands := List.nil_prefix
  level_eq hne := absurd rfl hne
  inside _ hk hlt := absurd hlt (Nat.not_lt.mpr hk)

/-- Reading one token stays on the level, unless the token opens a parenthesis. A `)` is read only
    where nothing is open. -/
theorem tail (h : At ts stop level i (t :: rest)) (ho : t ≠ .sym '(') :
    At ts stop level (i + 1) rest where
  stop_eq := by
    have hstop := h.stop_eq
    rw [List.length_cons] at hstop
    omega
  stands := stands_tail h.stands
  level_eq := by
    intro hne
    have hopen := h.level_eq (List.cons_ne_nil t rest)
    -- A `)` takes a parenthesis from what is open, and all that follows is inside of the level: it is empty.
    by_cases hc : t = .sym ')'
    · subst hc
      have hclose := openBefore_close h.token
      rw [hopen] at hclose
      have hlt : i + 1 < stop := by
        have hpos := List.length_pos_iff.mpr hne
        have hstop := h.stop_eq
        rw [List.length_cons] at hstop
        omega
      have hin := (h.inside (i + 1) (Nat.le_succ i) hlt).length_le
      rw [hclose, List.length_tail] at hin
      have hnil : level = [] := List.eq_nil_of_length_eq_zero (by omega)
      rw [hclose, hnil]
      rfl
    · rw [openBefore_other h.token ho hc, hopen]
  inside k hk hlt := h.inside k (Nat.le_of_succ_le hk) hlt

end At

/-! ## Stretches without a clause -/

/-- No clause begins on the level from position `i` on and in front of `j`. -/
def Quiet (ts : List Token) (level : List Nat) (i j : Nat) : Prop :=
  ∀ k, i ≤ k → k < j → innermost? ts k = level.head? → ¬ BeginsClauseAt ts k

theorem quiet_refl (ts : List Token) (level : List Nat) (i : Nat) : Quiet ts level i i :=
  fun _ hk hlt => absurd hlt (Nat.not_lt.mpr hk)

/-- Two stretches one behind the other in which no clause begins. -/
theorem Quiet.trans (h : Quiet ts level i j) (h' : Quiet ts level j k) : Quiet ts level i k := by
  intro l hi hk hl
  by_cases hj : l < j
  · exact h l hi hj hl
  · exact h' l (Nat.not_lt.mp hj) hk hl

theorem quiet_one (h : ¬ BeginsClauseAt ts i) : Quiet ts level i (i + 1) := by
  intro k hi hlt _
  obtain rfl : k = i := Nat.le_antisymm (Nat.le_of_lt_succ hlt) hi
  exact h

/-- A clause begins with one of its words, and with nothing else. -/
theorem not_beginsClauseAt (h : ts[i]? = some t) (ht : t.isKeyword Keyword.beginsClause = false) :
    ¬ BeginsClauseAt ts i := by
  rintro ⟨⟨u, hu, hk⟩, _⟩
  obtain rfl := Option.some.inj (h.symm.trans hu)
  rw [ht] at hk
  cases hk

theorem not_beginsClauseAt_of_dot (h : ts[i]? = some (.sym '.')) : ¬ BeginsClauseAt ts (i + 1) :=
  fun hb => hb.2 i rfl h

/-! ## Parentheses -/

/-- What is cut out and what is left behind it miss no token but the `)`. -/
theorem length_le_closeSpan (depth : Nat) (s : List Token) :
    s.length ≤ (closeSpan depth s).1.length + (closeSpan depth s).2.length + 1 := by
  fun_induction closeSpan depth s with
  | case1 => exact Nat.zero_le _
  | case3 => simp
  | case2 | case4 | case5 =>
      simp only [Prod.map_fst, Prod.map_snd, List.length_cons, id]
      omega

/-- A span from position `i` on, and what follows its end. -/
structure SpanAt (ts : List Token) (level : List Nat) (i : Nat) (s : List Token)
    (x : List Token × List Token) : Prop where
  /-- In the span and at its end the parentheses around it are open. -/
  inside : ∀ k, i ≤ k → k ≤ i + x.1.length → level <:+ openBefore ts k
  /-- What follows the end lies outside the innermost one of them. -/
  behind : x.2 ≠ [] → openBefore ts (i + x.1.length + 1) = level.tail ∧
    x.2 <+: ts.drop (i + x.1.length + 1) ∧ s.length = x.1.length + x.2.length + 1

/-- One more token in front of a span. -/
theorem SpanAt.cons {x : List Token × List Token} (t : Token) (hi : level <:+ openBefore ts i)
    (h : SpanAt ts level (i + 1) rest x) : SpanAt ts level i (t :: rest) (x.map (t :: ·) id) where
  inside := by
    intro k hk hle
    rcases Nat.eq_or_lt_of_le hk with rfl | hlt
    · exact hi
    · rw [Prod.map_fst, List.length_cons] at hle
      exact h.inside k hlt (by omega)
  behind := by
    intro hne
    obtain ⟨hopen, hstands, hlen⟩ := h.behind hne
    have hpos : i + (t :: x.1).length + 1 = i + 1 + x.1.length + 1 := by
      rw [List.length_cons]
      omega
    rw [Prod.map_fst, Prod.map_snd, id, hpos]
    refine ⟨hopen, hstands, ?_⟩
    rw [List.length_cons, List.length_cons, hlen]
    omega

/-- The search for the end of a span stays inside of its parenthesis and ends on the level around it. -/
theorem spanAt_closeSpan {depth : Nat} {inner : List Nat} (hs : s <+: ts.drop i)
    (hopen : openBefore ts i = inner ++ level) (hdepth : inner.length = depth) :
    SpanAt ts level i s (closeSpan depth s) := by
  have hlevel : level <:+ openBefore ts i := ⟨inner, hopen.symm⟩
  -- Along the search for the end: `inner` are the parentheses that it has passed since.
  fun_induction closeSpan depth s generalizing i inner with
  | case1 depth =>
      refine ⟨?_, fun hne => absurd rfl hne⟩
      intro k hk hle
      obtain rfl : k = i := Nat.le_antisymm hle hk
      exact hlevel
  | case2 depth rest ih =>
      have hnext : openBefore ts (i + 1) = i :: inner ++ level := by
        rw [openBefore_open (getElem?_of_stands hs), hopen]
        rfl
      have htail := ih (stands_tail hs) hnext (congrArg (· + 1) hdepth) ⟨i :: inner, hnext.symm⟩
      exact htail.cons _ hlevel
  | case3 rest =>
      obtain rfl : inner = [] := List.eq_nil_of_length_eq_zero hdepth
      refine ⟨?_, fun _ => ⟨?_, stands_tail hs, ?_⟩⟩
      · intro k hk hle
        obtain rfl : k = i := Nat.le_antisymm hle hk
        exact hlevel
      · rw [List.length_nil, Nat.add_zero, openBefore_close (getElem?_of_stands hs), hopen]
        rfl
      · rw [List.length_nil, Nat.zero_add, List.length_cons]
  | case4 rest _ outer ih =>
      obtain ⟨p, inner, rfl⟩ := List.exists_of_length_succ inner hdepth
      have hnext : openBefore ts (i + 1) = inner ++ level := by
        rw [openBefore_close (getElem?_of_stands hs), hopen]
        rfl
      have htail := ih (stands_tail hs) hnext (Nat.succ.inj hdepth) ⟨inner, hnext.symm⟩
      exact htail.cons _ hlevel
  | case5 depth t rest ho hc ih =>
      have hnext := openBefore_other (getElem?_of_stands hs) ho hc
      rw [hopen] at hnext
      exact (ih (stands_tail hs) hnext hdepth ⟨inner, hnext.symm⟩).cons t hlevel

/-- The span of a parenthesis stands one level further in, and what follows it stands on the level of the
    parenthesis. No clause of this level begins in the parenthesis. -/
theorem At.span (h : At ts stop level i (.sym '(' :: inside)) :
    At ts (i + 1 + (enclosed inside).1.length) (i :: level) (i + 1) (enclosed inside).1 ∧
      ∃ j, i + 1 + (enclosed inside).1.length ≤ j ∧ At ts stop level j (enclosed inside).2 ∧
        Quiet ts level i j := by
  have hlevel := h.level_eq (List.cons_ne_nil _ inside)
  have hopen : openBefore ts (i + 1) = [] ++ i :: level := by
    rw [openBefore_open h.token, hlevel]
    rfl
  have hspan : SpanAt ts (i :: level) (i + 1) inside (enclosed inside) :=
    spanAt_closeSpan (stands_tail h.stands) hopen rfl
  have hlen : inside.length ≤ (enclosed inside).1.length + (enclosed inside).2.length + 1 :=
    length_le_closeSpan 0 inside
  have hsize : (enclosed inside).1.length + (enclosed inside).2.length ≤ inside.length :=
    length_closeSpan_le 0 inside
  have hstop := h.stop_eq
  rw [List.length_cons] at hstop
  -- The parenthesis itself is no word, and every other token up to the end lies inside of it.
  have hquiet : ∀ j, j ≤ i + 1 + (enclosed inside).1.length + 1 → Quiet ts level i j := by
    intro j hj k hk hlt hinner
    rcases Nat.eq_or_lt_of_le hk with rfl | hlt'
    · exact not_beginsClauseAt h.token rfl
    · exact absurd hinner (innermost?_ne hlevel (hspan.inside k hlt' (by omega)))
  refine ⟨⟨rfl, ?_, fun _ => hopen, ?_⟩, ?_⟩
  · obtain ⟨close, happend⟩ := closeSpan_append 0 inside
    have hprefix : (closeSpan 0 inside).1 <+: inside :=
      ⟨close ++ (closeSpan 0 inside).2, by rw [← List.append_assoc, ← happend]⟩
    exact hprefix.trans (stands_tail h.stands)
  · intro k hk hlt
    exact hspan.inside k hk (Nat.le_of_lt hlt)
  · by_cases hne : (enclosed inside).2 = []
    · rw [hne]
      rw [hne, List.length_nil] at hlen hsize
      exact ⟨stop, by omega, At.nil ts stop level, hquiet stop (by omega)⟩
    · obtain ⟨hbehind, hstands, hlength⟩ := hspan.behind hne
      refine ⟨i + 1 + (enclosed inside).1.length + 1, Nat.le_succ _, ⟨?_, hstands, ?_, ?_⟩,
        hquiet _ (Nat.le_refl _)⟩
      · omega
      · exact fun _ => hbehind
      · intro k hk hlt
        exact h.inside k (by omega) hlt

end SqlTables
