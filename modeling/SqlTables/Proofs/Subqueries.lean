import SqlTables.Extraction
import SqlTables.Proofs.Token.Parens

/-!
# `SqlTables.Proofs.Subqueries` — an expression is what its subqueries are

In a span of expressions only parentheses count, and of these only the queries. Spans inside of spans are cut
out and read again level by level, but what is found is the same as if one pass over the whole span had picked
out the queries, wherever they stand, and each of them had been read on its own, with the names bound so far.

## Contents
- **`Paren.around`** and **`isOutermost`**: the queries that stand in no other query.
- **`Bytes.subqueries`**: these queries, with their depths.
- **`inSequence`**: findings one after another, which hand on the names they bind.
- **`subqueries_open`**: the queries of a span that starts with a parenthesis.
- **`search_expression_eq`**: what is found in a span of expressions.
-/

namespace SqlTables

open TokenSource

/-! ## Queries inside of a span -/

/-- The parentheses that hold one of them. -/
def Paren.around (ps : List Paren) (p : Paren) : List Paren := ps.filter (·.encloses p)

/-- Whether the span of a parenthesis is a query and lies in no other query. -/
def isOutermost (ps : List Paren) (p : Paren) : Bool :=
  startsQuery p.span && (p.around ps).all fun outer => !startsQuery outer.span

/-- A query and the depth at which it is read. -/
structure Subquery where
  depth : Nat
  span : Bytes
  deriving DecidableEq

/-- The outermost queries among parentheses that are read at a depth. Each parenthesis around a query adds a
    level, and so does its own. -/
def outermost (depth : Nat) (ps : List Paren) : List Subquery :=
  (ps.filter (isOutermost ps)).map fun p => ⟨depth + (p.around ps).length + 2, p.span⟩

/-- The outermost queries of a span: the span itself, or else those in its parentheses. -/
def Bytes.subqueries (depth : Nat) (s : Bytes) : List Subquery :=
  if startsQuery s then [⟨depth + 1, s⟩] else outermost depth s.parens

/-- Findings one after another: each is handed the names bound so far. -/
def inSequence (run : List String → Subquery → Findings) (bound : List String) :
    List Subquery → Findings
  | [] => ∅
  | q :: rest =>
      let found := run bound q
      found ++ inSequence run (bound ++ found.bound) rest

variable {bs rest : Bytes} {t : Token} {depth n : Nat} {p : Paren} {a b ps : List Paren}

/-! ## Parentheses apart, inside of each other and moved -/

/-- No parenthesis is enclosed by one that opens later. -/
theorem not_encloses_of_le {q : Paren} (h : q.first ≤ p.first) : p.encloses q = false := by
  rw [Paren.encloses, decide_eq_false (Nat.not_lt.mpr h), Bool.false_and]

/-- No parenthesis is enclosed by one that ends earlier. -/
theorem not_encloses_of_lt {q : Paren} (h : p.last < q.first) : p.encloses q = false := by
  have hlast : ¬ q.last ≤ p.last := by
    rw [Paren.last] at h ⊢
    rw [Paren.last]
    omega
  rw [Paren.encloses, decide_eq_false hlast, Bool.and_false]

/-- Parentheses behind that enclose nothing in front do not count. -/
theorem around_append_left (h : ∀ q ∈ b, q.encloses p = false) : p.around (a ++ b) = p.around a := by
  have hnone : b.filter (·.encloses p) = [] := by
    rw [List.filter_eq_nil_iff]
    intro q hq
    rw [h q hq]
    exact Bool.false_ne_true
  rw [Paren.around, List.filter_append, hnone, List.append_nil]
  rfl

/-- Parentheses in front that enclose nothing behind do not count. -/
theorem around_append_right (h : ∀ q ∈ a, q.encloses p = false) : p.around (a ++ b) = p.around b := by
  have hnone : a.filter (·.encloses p) = [] := by
    rw [List.filter_eq_nil_iff]
    intro q hq
    rw [h q hq]
    exact Bool.false_ne_true
  rw [Paren.around, List.filter_append, hnone, List.nil_append]
  rfl

theorem around_shift (n : Nat) (ps : List Paren) (p : Paren) :
    (p.shift n).around (ps.map (Paren.shift n)) = (p.around ps).map (Paren.shift n) := by
  rw [Paren.around, List.filter_map]
  congr 1
  apply List.filter_congr
  intro q _
  exact Paren.encloses_shift n q p

theorem isOutermost_shift (n : Nat) (ps : List Paren) (p : Paren) :
    isOutermost (ps.map (Paren.shift n)) (p.shift n) = isOutermost ps p := by
  rw [isOutermost, around_shift, List.all_map]
  rfl

/-- Where parentheses stand does not matter, only how they stand to each other. -/
theorem outermost_shift (depth n : Nat) (ps : List Paren) :
    outermost depth (ps.map (Paren.shift n)) = outermost depth ps := by
  have hfilter : (ps.filter fun p => isOutermost (ps.map (Paren.shift n)) (p.shift n)) =
      ps.filter (isOutermost ps) := by
    apply List.filter_congr
    intro p _
    exact isOutermost_shift n ps p
  rw [outermost, List.filter_map, List.map_map]
  unfold Function.comp
  rw [hfilter, outermost]
  apply List.map_congr_left
  intro p _
  show (⟨depth + ((p.shift n).around (ps.map (Paren.shift n))).length + 2, p.span⟩ : Subquery) = _
  rw [around_shift, List.length_map]

/-- Which spans are outermost depends on the parentheses around them alone. -/
theorem outermost_congr {ps' : List Paren} (h : ∀ p ∈ ps, p.around ps' = p.around ps) :
    ((ps.filter (isOutermost ps')).map fun p => (⟨depth + (p.around ps').length + 2, p.span⟩ : Subquery)) =
      outermost depth ps := by
  have hfilter : ps.filter (isOutermost ps') = ps.filter (isOutermost ps) := by
    apply List.filter_congr
    intro p hp
    rw [isOutermost, h p hp]
    rfl
  rw [hfilter, outermost]
  apply List.map_congr_left
  intro p hp
  rw [h p (List.mem_of_mem_filter hp)]

/-- Parentheses that stand behind others have queries of their own. -/
theorem outermost_append (h : ∀ p ∈ a, ∀ q ∈ b, p.last < q.first) :
    outermost depth (a ++ b) = outermost depth a ++ outermost depth b := by
  rw [outermost, List.filter_append, List.map_append, outermost_congr, outermost_congr]
  · intro q hq
    exact around_append_right fun p hp => not_encloses_of_lt (h p hp q hq)
  · intro p hp
    refine around_append_left fun q hq => not_encloses_of_le ?_
    have hlt := h p hp q hq
    rw [Paren.last] at hlt
    omega

/-- A parenthesis around others is an outermost query, or adds a level to those inside of it. -/
theorem outermost_cons (h : ∀ q ∈ a, p.encloses q = true) :
    outermost depth (p :: a) =
      if startsQuery p.span then [⟨depth + 2, p.span⟩] else outermost (depth + 1) a := by
  -- Nothing is around the first parenthesis, and it is around all the others.
  have hself : p.around (p :: a) = [] := by
    rw [Paren.around, List.filter_eq_nil_iff, List.forall_mem_cons]
    refine ⟨?_, fun q hq => ?_⟩
    · rw [not_encloses_of_le (Nat.le_refl p.first)]
      exact Bool.false_ne_true
    · have hin := h q hq
      rw [Paren.encloses, Bool.and_eq_true, decide_eq_true_eq] at hin
      rw [not_encloses_of_le (Nat.le_of_lt hin.1)]
      exact Bool.false_ne_true
  have hinner : ∀ q ∈ a, q.around (p :: a) = p :: q.around a := by
    intro q hq
    exact List.filter_cons_of_pos (h q hq)
  have hp : isOutermost (p :: a) p = startsQuery p.span := by
    rw [isOutermost, hself, List.all_nil, Bool.and_true]
  have hq : ∀ q ∈ a, isOutermost (p :: a) q = (!startsQuery p.span && isOutermost a q) := by
    intro q hq
    rw [isOutermost, hinner q hq, List.all_cons, isOutermost, Bool.and_left_comm]
  unfold outermost
  -- A query takes in all that stands inside of it; otherwise the inner spans are one level further down.
  by_cases hquery : startsQuery p.span = true
  · have hnone : a.filter (isOutermost (p :: a)) = [] := by
      rw [List.filter_eq_nil_iff]
      intro q hmem
      rw [hq q hmem, hquery]
      exact Bool.false_ne_true
    rw [List.filter_cons_of_pos (hp.trans hquery), hnone, if_pos hquery, List.map_singleton, hself]
    rfl
  · have hsame : a.filter (isOutermost (p :: a)) = a.filter (isOutermost a) := by
      apply List.filter_congr
      intro q hmem
      rw [hq q hmem, Bool.eq_false_iff.mpr hquery]
      rfl
    rw [List.filter_cons_of_neg (by rw [hp]; exact hquery), hsame, if_neg hquery]
    apply List.map_congr_left
    intro q hmem
    rw [hinner q (List.mem_of_mem_filter hmem), List.length_cons]
    congr 1
    omega

/-! ## One token -/

/-- A token that is no parenthesis does not change the outermost queries. -/
theorem subqueries_other (h : bs.nextToken? = some (t, rest)) (ht : t ≠ .sym '(') :
    outermost depth bs.parens = outermost depth rest.parens := by
  rw [parens_of_nextToken? h, if_neg ht, List.nil_append, outermost_shift]

/-- Behind a parenthesis there are the queries of its span, one level further in, and those behind its end. -/
theorem subqueries_open (h : bs.nextToken? = some (.sym '(', rest)) :
    outermost depth bs.parens =
      rest.enclosed.1.subqueries (depth + 1) ++ outermost depth rest.enclosed.2.parens := by
  rw [parens_open h, ← List.cons_append, outermost_append, outermost_cons, outermost_shift, outermost_shift]
  · rfl
  · intro q hq
    obtain ⟨inner, hinner, rfl⟩ := List.mem_map.mp hq
    obtain ⟨hfirst, hlast⟩ := bounds_of_mem_parens inner hinner
    rw [Paren.encloses, Paren.last_shift, Bool.and_eq_true, decide_eq_true_eq, decide_eq_true_eq]
    show offset bs rest < inner.first + offset bs rest ∧
      inner.last + offset bs rest ≤ offset bs rest + rest.enclosed.1.length
    omega
  · -- What stands behind the end is enclosed by nothing in front of it.
    intro q hq r hr
    obtain ⟨behind, hbehind, rfl⟩ := List.mem_map.mp hr
    have hend : q.last ≤ offset bs rest + rest.enclosed.1.length := by
      rcases List.mem_cons.mp hq with rfl | hinside
      · exact Nat.le_refl _
      · obtain ⟨inner, hinner, rfl⟩ := List.mem_map.mp hinside
        obtain ⟨-, hlast⟩ := bounds_of_mem_parens inner hinner
        rw [Paren.last_shift]
        omega
    rw [Paren.shift]
    simp only
    omega

/-! ## Findings one after another -/

variable {run : List String → Subquery → Findings} {bound : List String}

/-- Queries one after the other are searched in two parts, the second one behind the names that the first one
    binds. -/
theorem inSequence_append (qs qs' : List Subquery) :
    inSequence run bound (qs ++ qs') =
      inSequence run bound qs ++ inSequence run (bound ++ (inSequence run bound qs).bound) qs' := by
  induction qs generalizing bound with
  | nil =>
      rw [List.nil_append, inSequence, Findings.empty_append, Findings.bound_empty, List.append_nil]
  | cons q qs ih =>
      rw [List.cons_append, inSequence, ih, inSequence, Findings.append_assoc, Findings.bound_append,
        List.append_assoc]

theorem inSequence_singleton (q : Subquery) : inSequence run bound [q] = run bound q :=
  Findings.append_empty _

/-- Where spans are searched for their subqueries, a span of expressions consists of those in its parentheses. -/
theorem expression_eq_inSequence {env : Env Bytes} {keep : Subquery → Bool}
    (henv : ∀ bound s, env.search .expression bound s =
      inSequence run bound ((s.subqueries (depth + 1)).filter keep)) (bound : List String) (bs : Bytes) :
    expression env bound bs = inSequence run bound ((outermost depth bs.parens).filter keep) := by
  fun_induction expression env bound bs with
  | case1 bound bs h =>
      rw [parens_of_nextToken?_none h]
      rfl
  | case2 bound bs rest found h ih =>
      have hfound : found = inSequence run bound ((rest.enclosed.1.subqueries (depth + 1)).filter keep) :=
        henv bound rest.enclosed.1
      rw [subqueries_open h, List.filter_append, inSequence_append, ← hfound, ih]
      rfl
  | case3 bound bs t rest h ho ih => rw [subqueries_other h ho, ih]

/-! ## Spans of expressions -/

/-- **Expressions are opaque except for their subqueries.** What is found in a span of expressions at a depth
    is what is found in its outermost queries when each of them is read as a query of its own, in the order of
    the text and with the names that those before it bind. Queries deeper than the limit are left out, and
    nothing outside of the queries counts. -/
theorem search_expression_eq (lower usingTables : Bool) (maxDepth depth : Nat) (bound : List String)
    (s : Bytes) :
    (Env.nested lower usingTables (maxDepth - depth)).search .expression bound s =
      inSequence (fun bound q => query (Env.nested lower usingTables (maxDepth - q.depth)) bound q.span) bound
        ((s.subqueries depth).filter (·.depth ≤ maxDepth)) := by
  generalize hleft : maxDepth - depth = left
  induction left generalizing depth bound s with
  | zero =>
      -- All the queries of the span are deeper than the limit.
      have hnone : (s.subqueries depth).filter (·.depth ≤ maxDepth) = [] := by
        rw [List.filter_eq_nil_iff]
        intro q hq
        rw [decide_eq_true_eq]
        unfold Bytes.subqueries at hq
        split at hq
        · rw [List.mem_singleton.mp hq]
          simp only
          omega
        · obtain ⟨p, -, rfl⟩ := List.mem_map.mp hq
          simp only
          omega
      rw [hnone]
      rfl
  | succ left ih =>
      have henv : ∀ bound s, (Env.nested lower usingTables left).search .expression bound s = _ :=
        fun bound s => ih (depth + 1) bound s (by omega)
      rw [nested_succ]
      show span (Env.nested lower usingTables left) .expression bound s = _
      unfold span Bytes.subqueries
      by_cases hquery : startsQuery s = true
      · have hdepth : depth + 1 ≤ maxDepth := by omega
        have hlevel : maxDepth - (depth + 1) = left := by omega
        rw [if_pos hquery, if_pos hquery, List.filter_singleton, decide_eq_true hdepth]
        rw [cond_true, inSequence_singleton, hlevel]
      · rw [if_neg hquery, if_neg hquery]
        exact expression_eq_inSequence henv bound s

/-- A query in parentheses, two of them further inside of another function, and one that is never closed. What stands
    inside of a query is not listed on its own. -/
example :
    let s := ascii "EXTRACT(YEAR FROM d), f((SELECT a, g(x)), h((SELECT b FROM (SELECT c), t))), (((SELECT d"
    s.subqueries 1 =
      [⟨4, ascii "SELECT a, g(x)"⟩, ⟨5, ascii "SELECT b FROM (SELECT c), t"⟩, ⟨5, ascii "SELECT d"⟩] := by
  decide +kernel

end SqlTables
