import SqlTables.Proofs.Simulation.Readers
import SqlTables.Proofs.StatementEnd.Cut

/-!
# `SqlTables.Proofs.Union` — a query in front of a `UNION`

What stands behind a `UNION` is read as if the query in front of it had ended there: no alias, hint, join or
name that the query leaves unfinished takes anything from behind the `UNION`. Only an index hint that breaks
off in its purpose takes the `UNION` itself, and then the next query is left as it is.

## Contents
- **`Parted`**: tokens and a `UNION` with a query behind it.
- **`Leaves`**: what a reader leaves in front of the `UNION`, with one lemma `…_leaves` for each reader.
- **`body_union`**: the rest of a statement in front of a `UNION`.
-/

namespace SqlTables

open TokenSource Grammar

/-! ## Two queries -/

/-- A word that a query starts with behind `UNION`. -/
def Resumes (t : Token) : Prop :=
  t.isKeyword (fun k => k == .SELECT || k == .ALL || k == .DISTINCT) = true

/-- Tokens that leave no parenthesis and no name open, and a mark with a query behind it. -/
structure Parted (s z : List Token) : Prop where
  closed : Closed s
  apart : Apart s z
  mark : Starts IsMark z
  resumes : Starts Resumes z.tail

/-- Either everything stays in front of the mark, or nothing is left and the mark itself is gone. -/
def Leaves (z r r' : List Token) : Prop := r' = r ++ z ∨ r = [] ∧ r' = z.tail

variable {s rest z r r' : List Token} {t : Token}

/-- An end of the tokens is parted from the `UNION` as well. -/
theorem Parted.of_suffix (hs : rest <:+ s) (h : Parted s z) : Parted rest z :=
  ⟨closed_of_suffix hs h.closed, h.apart.of_suffix hs, h.mark, h.resumes⟩

/-! ## Index hints -/

/-- One token is passed. If none is left, it is the mark. -/
theorem advance_leaves (s z : List Token) : Leaves z (advance s) (advance (s ++ z)) := by
  cases s with
  | cons t s => exact Or.inl rfl
  | nil =>
      refine Or.inr ⟨rfl, ?_⟩
      cases z <;> rfl

/-- What an index hint is for stays in front of the mark, unless the text ends in it. -/
theorem skipHintPurpose_leaves (hz : Starts IsMark z) (s : List Token) :
    Leaves z (skipHintPurpose s) (skipHintPurpose (s ++ z)) := by
  rw [skipHintPurpose, skipHintPurpose, acceptKeyword?_before rfl hz]
  cases acceptKeyword? (· == .FOR) s with
  | none => exact Or.inl rfl
  | some rest =>
      simp only [Option.map_some]
      rw [acceptKeyword?_before rfl hz]
      -- Behind `FOR` a word is passed unseen, and that word may be the mark.
      cases acceptKeyword? (fun k => k == .ORDER || k == .GROUP) rest with
      | none => exact advance_leaves rest z
      | some last => exact advance_leaves last z

/-- A span stays in front of the mark, and the next query starts with no parenthesis. -/
theorem skipSpan_leaves (h : Parted r z) (hl : Leaves z r r') :
    Leaves z (skipSpan r) (skipSpan r') := by
  rcases hl with rfl | ⟨rfl, rfl⟩
  · exact Or.inl (skipSpan_before h.mark h.closed)
  · exact Or.inr ⟨rfl, skipSpan_stop (starts_imp (fun _ ht => ne_sym_of_isKeyword ht _) h.resumes)⟩

/-- An index hint stays in front of the mark, unless the text ends in its purpose. -/
theorem indexHint?_leaves (h : Parted s z) :
    Both (Leaves z) (indexHint? s) (indexHint? (s ++ z)) := by
  simp only [indexHint?, Option.bind_eq_bind]
  rw [acceptKeyword?_before rfl h.mark]
  cases ha : acceptKeyword? (fun k => k == .USE || k == .FORCE || k == .IGNORE) s with
  | none => exact Or.inl ⟨rfl, rfl⟩
  | some index =>
      simp only [Option.map_some, Option.bind_some]
      rw [acceptKeyword?_before rfl h.mark]
      cases hi : acceptKeyword? (fun k => k == .INDEX || k == .KEY) index with
      | none => exact Or.inl ⟨rfl, rfl⟩
      | some rest =>
          have hsuffix : skipHintPurpose rest <:+ s :=
            (skipHintPurpose_suffix rest).trans ((accept?_suffix hi).trans (accept?_suffix ha))
          have hleaves := skipSpan_leaves (h.of_suffix hsuffix) (skipHintPurpose_leaves h.mark rest)
          exact Or.inr ⟨_, _, rfl, rfl, hleaves⟩

/-- No index hint starts with a word of a query. -/
theorem skipIndexHints_resumes (h : Starts Resumes z) : skipIndexHints z = z := by
  have haction : acceptKeyword? (fun k => k == .USE || k == .FORCE || k == .IGNORE) z = none :=
    acceptKeyword?_stop
      (starts_imp (fun _ => isKeyword_disjoint (forall_keyword (by decide))) h)
  rw [skipIndexHints_eq, indexHint?, haction]
  rfl

/-- Index hints stay in front of the mark, unless the text ends in the purpose of the last one. -/
theorem skipIndexHints_leaves (h : Parted s z) :
    Leaves z (skipIndexHints s) (skipIndexHints (s ++ z)) := by
  generalize hn : s.length = n
  induction n using Nat.strongRecOn generalizing s with
  | ind n ih =>
      rw [skipIndexHints_eq s, skipIndexHints_eq (s ++ z)]
      rcases indexHint?_leaves h with ⟨hs, ht⟩ | ⟨rest, rest', hs, ht, hl⟩
      · rw [hs, ht]
        exact Or.inl rfl
      · rw [hs, ht]
        rcases hl with rfl | ⟨rfl, rfl⟩
        · exact ih _ (hn ▸ size_lt_of_indexHint? hs) (h.of_suffix (indexHint?_suffix hs)) rfl
        · -- The mark is gone, and no hint starts with what is left.
          exact Or.inr ⟨skipIndexHints_nil, skipIndexHints_resumes h.resumes⟩

/-! ## Lists of tables -/

variable {env : Env (List Token)} {bound : List String}

/-- The same findings, and what is left of the tokens. -/
def PartLeaves (z : List Token) (x y : Findings × List Token) : Prop :=
  y.1 = x.1 ∧ Leaves z x.2 y.2

/-- An item of a list is found in front of the mark, and only its index hints may take the mark. -/
theorem tableItem?_leaves (env : Env (List Token)) (bound : List String) (h : Parted s z) :
    Both (PartLeaves z) (tableItem? env bound s) (tableItem? env bound (s ++ z)) := by
  rw [tableItem?_eq_itemStart?, tableItem?_eq_itemStart?,
    itemStart?_before env bound h.mark h.closed h.apart]
  cases hx : itemStart? env bound s with
  | none => exact Or.inl ⟨rfl, rfl⟩
  | some x =>
      have hleaves := skipIndexHints_leaves (h.of_suffix (itemStart?_suffix hx))
      exact Or.inr ⟨_, _, rfl, rfl, rfl, hleaves⟩

/-- No list goes on with a word of a query. -/
theorem nextTable?_resumes (h : Starts Resumes z) : nextTable? z = none := by
  have hcomma : Starts (· ≠ .sym ',') z := starts_imp (fun _ ht => ne_sym_of_isKeyword ht _) h
  have hmodifier : Starts (fun t => t.isKeyword Keyword.isJoinModifier = false) z :=
    starts_imp (fun _ => isKeyword_disjoint (forall_keyword (by decide))) h
  have hjoin : Starts (fun t => t.isKeyword Keyword.isJoin = false) z :=
    starts_imp (fun _ => isKeyword_disjoint (forall_keyword (by decide))) h
  rw [nextTable?, acceptSym?_stop hcomma, skipKeywords_stop hmodifier]
  exact acceptKeyword?_stop hjoin

/-- Whether a list goes on shows in front of the mark. -/
theorem nextTable?_leaves (h : Parted s z) (hl : Leaves z s r') :
    nextTable? r' = (nextTable? s).map (· ++ z) := by
  rcases hl with rfl | ⟨rfl, rfl⟩
  · exact nextTable?_before h.mark s
  · rw [nextTable?_nil, nextTable?_resumes h.resumes, Option.map_none]

/-- A list is found in front of the mark. -/
theorem tableList_leaves (henv : env.Faithful) (h : Parted s z) :
    PartLeaves z (tableList env bound s) (tableList env bound (s ++ z)) := by
  generalize hn : s.length = n
  induction n using Nat.strongRecOn generalizing s bound with
  | ind n ih =>
      rw [tableList_eq env bound s, tableList_eq env bound (s ++ z)]
      rcases tableItem?_leaves env bound h with ⟨hs, ht⟩ | ⟨⟨f, rest⟩, ⟨g, rest'⟩, hs, ht, hfg, hl⟩
      · rw [hs, ht]
        exact ⟨rfl, Or.inl rfl⟩
      · obtain rfl : g = f := hfg
        have hrest : Parted rest z := h.of_suffix (suffix_of_reads (tableItem?_reads henv hs))
        rw [hs, ht]
        simp only
        rw [nextTable?_leaves hrest hl]
        cases hnext : nextTable? rest with
        | none => exact ⟨rfl, hl⟩
        | some next =>
            have hlt := Nat.lt_trans (size_lt_of_nextTable? hnext) (size_lt_of_tableItem? hs)
            have hnextrest : Parted next z := hrest.of_suffix (nextTable?_suffix hnext)
            obtain ⟨hmore, hleaves⟩ : PartLeaves z (tableList env (bound ++ g.bound) next)
              (tableList env (bound ++ g.bound) (next ++ z)) := ih _ (hn ▸ hlt) hnextrest rfl
            exact ⟨congrArg (g ++ ·) hmore, hleaves⟩

/-! ## The rest of a statement -/

/-- What belongs to a token of the body is found in front of the mark. -/
theorem clause_leaves (henv : env.Faithful) (bound : List String) (h : Parted (t :: rest) z) :
    PartLeaves z (clause env bound t rest) (clause env bound t (rest ++ z)) := by
  cases hl : startsList env t rest with
  | false =>
      rw [clause_before h.mark h.closed hl]
      exact ⟨rfl, Or.inl rfl⟩
  | true =>
      have hl' : startsList env t (rest ++ z) = true :=
        (startsList_before h.mark env t rest).trans hl
      rw [clause_of_startsList hl, clause_of_startsList hl']
      exact tableList_leaves henv (h.of_suffix (List.suffix_cons t rest))

/-- What stands behind a mark that contributes nothing itself is read as a statement of its own, behind
    the names that are bound in front of it. -/
theorem body_before (henv : env.Faithful) (h : Parted s z) (hs : .sym ';' ∉ s)
    (hz : ∀ b, body env true b z = body env true b z.tail) :
    body env true bound (s ++ z) =
      body env true bound s ++ body env true (bound ++ (body env true bound s).bound) z := by
  generalize hn : s.length = n
  induction n using Nat.strongRecOn generalizing s bound with
  | ind n ih =>
      cases s with
      | nil =>
          rw [body_end, Findings.bound_empty, List.append_nil, Findings.empty_append]
          rfl
      | cons t rest =>
          have ht : t ≠ .sym ';' := fun ht => hs (ht ▸ List.mem_cons_self)
          have hsuffix : (clause env bound t rest).2 <:+ t :: rest :=
            (suffix_of_reads (clause_reads henv bound t rest)).trans (List.suffix_cons t rest)
          have hlt : (clause env bound t rest).2.length < n :=
            hn ▸ Nat.lt_succ_of_le (size_clause_le env bound t rest)
          obtain ⟨hfound, hl⟩ := clause_leaves henv bound h
          -- Whether the mark is left or gone, what stands behind it is still to be read.
          have hrest : ∀ b, body env true b (clause env bound t (rest ++ z)).2 =
              body env true b ((clause env bound t rest).2 ++ z) := by
            intro b
            rcases hl with hl | ⟨hnil, hl⟩
            · rw [hl]
            · rw [hl, hnil, List.nil_append, hz]
          rw [List.cons_append, body_top ht, body_top ht, hfound, hrest,
            ih _ hlt (h.of_suffix hsuffix) (fun hmem => hs (hsuffix.subset hmem)) rfl,
            Findings.append_assoc, Findings.bound_append, List.append_assoc]

end SqlTables
