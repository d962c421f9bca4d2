import SqlTables.Extraction.QualifiedName
import SqlTables.Proofs.Cursor

/-!
# `SqlTables.Proofs.Cursor.QualifiedName` — a qualified name is the longest chain

The name of a table is a chain: identifiers with a dot between each of them and the next. A cursor reads the
longest chain that starts where it stands. Its last identifier is the table and the one before it the schema,
and whatever follows the last identifier is left, be it a dot.

## Contents
- **`Cursor.qualifiedName`**: reading a name.
- **`Cursor.Chain`** and **`Cursor.LongestChain`**.
- **`Chain.isPrefix`** and `Chain.longest`: a chain behind which no further part stands.
- **`furtherParts_chain`**: the parts that are read make such a chain.
- **`qualifiedName_longestChain`**: reading a name as a whole.
-/

namespace SqlTables

open TokenSource

namespace Cursor

/-- Reads a qualified name. Where none starts the cursor stays. -/
def qualifiedName (c : Cursor) : Option QualifiedName × Cursor :=
  match qualifiedName? c.rest with
  | some (name, rest) => (some name, c.moveTo rest)
  | none => (none, c)

/-! ## Chains -/

/-- From one cursor to another these identifiers are read, with a dot between each of them and the next. -/
inductive Chain : Cursor → List Token → Cursor → Prop where
  | single {c d : Cursor} {t : Token} : c.next = (some t, d) → t.isIdentifier = true → Chain c [t] d
  | dotted {c d e f : Cursor} {t : Token} {parts : List Token} : c.next = (some t, d) →
      t.isIdentifier = true → d.next = (some (.sym '.'), e) → Chain e parts f → Chain c (t :: parts) f

/-- A chain than which no other one from the same cursor is longer. -/
structure LongestChain (c : Cursor) (parts : List Token) (d : Cursor) : Prop where
  chain : Chain c parts d
  longest {parts' : List Token} {d' : Cursor} : Chain c parts' d' → parts'.length ≤ parts.length

/-- No dot with an identifier behind it comes next. -/
def Stops (d : Cursor) : Prop :=
  ∀ dot behind part, d.next = (some (.sym '.'), dot) → dot.next = (some part, behind) →
    part.isIdentifier = false

variable {c d d' dot : Cursor} {t part : Token} {parts parts' : List Token} {s rest : Bytes}

theorem Chain.next_first (h : Chain c parts d) :
    ∃ t behind, c.next = (some t, behind) ∧ t.isIdentifier = true := by
  cases h with
  | single hnext ht => exact ⟨_, _, hnext, ht⟩
  | dotted hnext ht _ _ => exact ⟨_, _, hnext, ht⟩

theorem Chain.ne_nil (h : Chain c parts d) : parts ≠ [] := by
  cases h with
  | single _ _ => exact List.cons_ne_nil _ _
  | dotted _ _ _ _ => exact List.cons_ne_nil _ _

/-- A chain behind which no further part stands goes on as long as any other one. -/
theorem Chain.isPrefix (h : Chain c parts d) (hstop : d.Stops) (h' : Chain c parts' d') :
    parts' <+: parts := by
  induction h' generalizing parts with
  | single hnext' _ =>
      cases h with
      | single hnext _ =>
          obtain ⟨ht, -⟩ := Prod.mk.inj (hnext'.symm.trans hnext)
          obtain rfl := Option.some.inj ht
          exact List.prefix_rfl
      | dotted hnext _ _ _ =>
          obtain ⟨ht, -⟩ := Prod.mk.inj (hnext'.symm.trans hnext)
          rw [Option.some.inj ht]
          exact List.prefix_append [_] _
  | dotted hnext' _ hdot' hchain' ih =>
      cases h with
      | single hnext _ =>
          -- The other chain would go on where this one stops.
          obtain ⟨-, rfl⟩ := Prod.mk.inj (hnext'.symm.trans hnext)
          obtain ⟨part, behind, hpart, hid⟩ := hchain'.next_first
          rw [hstop _ behind part hdot' hpart] at hid
          cases hid
      | dotted hnext _ hdot hchain =>
          obtain ⟨ht, rfl⟩ := Prod.mk.inj (hnext'.symm.trans hnext)
          obtain ⟨-, rfl⟩ := Prod.mk.inj (hdot'.symm.trans hdot)
          rw [Option.some.inj ht]
          exact (List.prefix_cons_inj _).mpr (ih hchain)

theorem Chain.longest (h : Chain c parts d) (hstop : d.Stops) : LongestChain c parts d :=
  ⟨h, fun h' => (h.isPrefix hstop h').length_le⟩

/-- The identifiers of a chain tell where it ends. -/
theorem Chain.end_unique (h : Chain c parts d) (h' : Chain c parts d') : d = d' := by
  induction h with
  | single hnext _ =>
      cases h' with
      | single hnext' _ => exact (Prod.mk.inj (hnext.symm.trans hnext')).2
      | dotted _ _ _ hchain' => cases hchain'
  | dotted hnext _ hdot hchain ih =>
      cases h' with
      | single _ _ => cases hchain
      | dotted hnext' _ hdot' hchain' =>
          obtain ⟨-, rfl⟩ := Prod.mk.inj (hnext.symm.trans hnext')
          obtain ⟨-, rfl⟩ := Prod.mk.inj (hdot.symm.trans hdot')
          exact ih hchain'

/-- There is only one longest chain. -/
theorem LongestChain.unique (h : LongestChain c parts d) (hchain : Chain c parts' d') (hstop : d'.Stops) :
    parts = parts' ∧ d = d' := by
  have hprefix := hchain.isPrefix hstop h.chain
  obtain rfl : parts = parts' := hprefix.eq_of_length_le (h.longest hchain)
  exact ⟨rfl, h.chain.end_unique hchain⟩

/-! ## The parts of a name -/

/-- A further part is two tokens one behind the other, a dot and an identifier. -/
theorem dottedPart?_eq_some_iff : dottedPart? s = some (part, rest) ↔
    ∃ mid : Bytes, s.nextToken? = some (.sym '.', mid) ∧ mid.nextToken? = some (part, rest) ∧
      part.isIdentifier = true := by
  have hdot : ∀ mid, acceptSym? '.' s = some mid ↔ s.nextToken? = some (.sym '.', mid) := by
    intro mid
    have hnext : next? s = s.nextToken? := rfl
    rw [acceptSym?, accept?, hnext]
    cases s.nextToken? with
    | none => simp
    | some first => simp [Prod.ext_iff]
  simp only [dottedPart?, Option.bind_eq_bind, Option.bind_eq_some_iff, hdot]
  constructor
  · rintro ⟨mid, hmid, ⟨t, r⟩, hnext, hid⟩
    simp only at hid
    split at hid
    · next ht =>
        cases hid
        exact ⟨mid, hmid, hnext, ht⟩
    · cases hid
  · rintro ⟨mid, hmid, hnext, hid⟩
    exact ⟨mid, hmid, (part, rest), hnext, if_pos hid⟩

/-- Where no further part is read the chain stops. -/
theorem stops_of_dottedPart? (h : dottedPart? d.rest = none) : d.Stops := by
  intro dot behind part hdot hpart
  rw [← Bool.not_eq_true]
  intro hid
  have hsome := dottedPart?_eq_some_iff.mpr ⟨_, (rest_of_next hdot).1, (rest_of_next hpart).1, hid⟩
  rw [h] at hsome
  cases hsome

/-- Behind its first part a name takes up all further ones: they make a chain, and no part stands behind it. -/
theorem furtherParts_chain (name : QualifiedName) (hnext : c.next = (some name.table, d))
    (htable : name.table.isIdentifier = true) :
    ∃ parts, let last := d.moveTo (furtherParts name d.rest).2
      Chain c parts last ∧ last.Stops ∧ parts.getLast? = some (furtherParts name d.rest).1.table ∧
        parts.dropLast.getLast?.or name.schema = (furtherParts name d.rest).1.schema := by
  generalize hs : d.rest = s
  fun_induction furtherParts name s generalizing c d with
  | case1 name s part rest h ih =>
      -- The dot and the part are read on a copy, which becomes the cursor.
      obtain ⟨mid, hdot, hpart, hid⟩ := dottedPart?_eq_some_iff.mp h
      subst hs
      have hdot' : d.next = (some (.sym '.'), d.moveTo mid) := next_eq_some_iff.mpr ⟨mid, hdot, rfl⟩
      have hmid : (d.moveTo mid).rest = mid := rest_moveTo (nextToken?_rest_suffix hdot)
      have hpart' : (d.moveTo mid).next = (some part, d.moveTo rest) :=
        next_eq_some_iff.mpr ⟨rest, hmid.symm ▸ hpart, rfl⟩
      have hrest : (d.moveTo rest).rest = rest := by
        have hsuffix := nextToken?_rest_suffix (hmid.symm ▸ hpart)
        exact rest_moveTo hsuffix
      obtain ⟨parts, hchain, hstop, hlast, hschema⟩ := ih hpart' hid hrest
      refine ⟨name.table :: parts, .dotted hnext htable hdot' hchain, hstop, ?_, ?_⟩
      · rw [List.getLast?_cons_of_ne_nil hchain.ne_nil]
        exact hlast
      · -- The table moves up to be the schema if no part in front of the last one does.
        rw [List.dropLast_cons_of_ne_nil hchain.ne_nil, List.getLast?_cons, ← hschema]
        cases parts.dropLast.getLast? <;> rfl
  | case2 name s h =>
      subst hs
      obtain ⟨-, htext, hposition⟩ := rest_of_next hnext
      have hstay : d.moveTo d.rest = d := by
        rw [moveTo, Cursor.mk.injEq]
        exact ⟨rfl, (hposition.trans (htext ▸ rfl)).symm⟩
      rw [hstay]
      exact ⟨[name.table], .single hnext htable, stops_of_dottedPart? h, rfl, rfl⟩

/-! ## Names -/

/-- Where a name starts, its chain is read to the end. -/
theorem qualifiedName_of_startsName (hnext : c.next = (some t, d)) (ht : startsName t = true) :
    ∃ parts last name, Chain c parts last ∧ last.Stops ∧ c.qualifiedName = (some name, last) ∧
      parts.getLast? = some name.table ∧ parts.dropLast.getLast? = name.schema := by
  have hid : t.isIdentifier = true := (Bool.and_eq_true _ _ ▸ ht).1
  obtain ⟨htoken, htext, -⟩ := rest_of_next hnext
  obtain ⟨parts, hchain, hstop, hlast, hschema⟩ := furtherParts_chain ⟨none, t⟩ hnext hid
  have hname : qualifiedName? c.rest = some (furtherParts ⟨none, t⟩ d.rest) := by
    have hnext' : next? c.rest = some (t, d.rest) := htoken
    rw [qualifiedName?, hnext']
    exact if_pos ht
  refine ⟨parts, _, (furtherParts ⟨none, t⟩ d.rest).1, hchain, hstop, ?_, hlast, ?_⟩
  · have hmove : ∀ rest, d.moveTo rest = c.moveTo rest := fun rest => by
      unfold moveTo
      rw [htext]
    rw [qualifiedName, hname, hmove]
  · rw [← hschema, Option.or_none]

/-- Where none does, nothing is read. -/
theorem qualifiedName_of_not_startsName (h : ∀ t ∈ c.peek, startsName t = false) :
    c.qualifiedName = (none, c) := by
  have hname : qualifiedName? c.rest = none := by
    unfold qualifiedName?
    split
    · next t rest hnext =>
        have hpeek : c.peek = some t := congrArg Prod.fst (next_eq_some_iff.mpr ⟨rest, hnext, rfl⟩)
        rw [if_neg (Bool.eq_false_iff.mp (h t hpeek))]
    · rfl
  rw [qualifiedName, hname]

/-- **A qualified name is the longest chain.** If no identifier comes next, or a word that closes a table list,
    there is no name and the cursor stays. Otherwise there is a longest chain from the cursor on, and whichever
    is one, its last identifier is the table and the one before it the schema. The cursor stands where the chain
    ends, and a dot that comes next there has no identifier behind it. -/
theorem qualifiedName_longestChain (c : Cursor) :
    ((∀ t ∈ c.peek, t.isIdentifier = false ∨ t.isKeyword Keyword.endsTableList = true) →
      c.qualifiedName = (none, c)) ∧
    ∀ t ∈ c.peek, t.isIdentifier = true → t.isKeyword Keyword.endsTableList = false →
      (∃ parts d, LongestChain c parts d) ∧
        ∀ parts d, LongestChain c parts d →
          (∃ name, c.qualifiedName = (some name, d) ∧ parts.getLast? = some name.table ∧
            parts.dropLast.getLast? = name.schema) ∧ d.Stops := by
  constructor
  · intro hnone
    refine qualifiedName_of_not_startsName fun t ht => ?_
    rcases hnone t ht with hid | hends
    · rw [startsName, hid, Bool.false_and]
    · rw [startsName, hends, Bool.not_true, Bool.and_false]
  · intro t ht hid hends
    have hstarts : startsName t = true := by rw [startsName, hid, hends, Bool.not_false, Bool.and_true]
    have hnext : c.next = (some t, c.next.2) := Prod.ext ht rfl
    obtain ⟨parts, last, name, hchain, hstop, hname, htable, hschema⟩ :=
      qualifiedName_of_startsName hnext hstarts
    refine ⟨⟨parts, last, hchain.longest hstop⟩, ?_⟩
    intro parts' d hlongest
    -- The chain that was read stops, so every longest one is this one.
    obtain ⟨rfl, rfl⟩ := hlongest.unique hchain hstop
    exact ⟨⟨name, hname, htable, hschema⟩, hstop⟩

/-- Comments and a line end stand between the parts, the last part is a keyword, and the dot behind it has no
    part. At `JOIN` itself no name starts. -/
theorem qualifiedName_longestChain_dot :
    let c : Cursor := ⟨ascii "JOIN a /* . b */ . `c``d`\n.select . (x)", 4⟩
    let d : Cursor := ⟨c.text, 33⟩
    c.peek = some (.word (ascii "a")) ∧
      LongestChain c [.word (ascii "a"), .quoted .backtick (ascii "c``d"), .word (ascii "select")] d ∧
      c.qualifiedName = (some ⟨some (.quoted .backtick (ascii "c``d")), .word (ascii "select")⟩, d) ∧
      d.Stops ∧ (start c.text).qualifiedName = (none, start c.text) := by
  intro c d
  have hpeek : c.peek = some (.word (ascii "a")) := by decide +kernel
  have hchain : Chain c [.word (ascii "a"), .quoted .backtick (ascii "c``d"), .word (ascii "select")] d :=
    .dotted (d := ⟨c.text, 6⟩) (e := ⟨c.text, 18⟩) (by decide +kernel) rfl (by decide +kernel)
      (.dotted (d := ⟨c.text, 25⟩) (e := ⟨c.text, 27⟩) (by decide +kernel) rfl (by decide +kernel)
        (.single (by decide +kernel) rfl))
  have hlongest := hchain.longest (stops_of_dottedPart? (by decide +kernel))
  obtain ⟨-, hsome⟩ := qualifiedName_longestChain c
  obtain ⟨⟨⟨schema, table⟩, hname, htable, hschema⟩, hstop⟩ :=
    (hsome _ hpeek rfl (by decide +kernel)).2 _ d hlongest
  obtain rfl : Token.word (ascii "select") = table := Option.some.inj htable
  obtain rfl : some (Token.quoted .backtick (ascii "c``d")) = schema := hschema
  refine ⟨hpeek, hlongest, hname, hstop, ?_⟩
  apply (qualifiedName_longestChain (start c.text)).1
  intro t ht
  obtain rfl : Token.word (ascii "JOIN") = t := Option.some.inj (Eq.trans (by decide +kernel) ht)
  exact Or.inr (by decide +kernel)

end Cursor

end SqlTables
