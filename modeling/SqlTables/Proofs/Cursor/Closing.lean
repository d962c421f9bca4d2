import SqlTables.Proofs.Cursor
import SqlTables.Proofs.Token.Spans

/-!
# `SqlTables.Proofs.Cursor.Closing` — a parenthesis closes where its tokens say

The end of a parenthesis is looked for byte by byte, and the search may start anywhere, even inside a word or
a quoted text. Two loops say what that means: one passes a gap, a quoted text or a single byte in each turn,
the other one reads a token. Both count the parentheses that are open, and both come to the same end.

## Contents
- **`Search`** and **`Search.Turn`**: the state of a loop and what a turn makes of it.
- **`Search.byBytes`** and **`Search.byTokens`**: the two loops.
- **`Search.Reaches`** and **`Search.Finds`**: runs of a loop, with `Finds.unique`.
- **`opened_of_reaches`**: the count never falls below one while a loop goes on.
- **`byBytes_finds`** and **`byTokens_finds`**: what the loops find.
- **`closing_iff`**: the offset of the closing parenthesis.
-/

namespace SqlTables

/-! ## Two loops -/

/-- How far a search for the end of a parenthesis has come, and how many parentheses are open there. The
    number is an integer, so that one below zero would show. -/
structure Search where
  position : Nat
  opened : Int
  deriving DecidableEq

namespace Search

/-- What one turn of a search leads to. -/
inductive Turn where
  /-- The search ends, with the offset that it has looked for. -/
  | found (offset : Nat)
  /-- The search goes on. -/
  | onward (next : Search)
  deriving DecidableEq

/-- Behind a `)` at an offset: the search ends if none is open any more. -/
def close (s : Search) (at_ behind : Nat) : Turn :=
  if s.opened - 1 = 0 then .found at_ else .onward ⟨behind, s.opened - 1⟩

/-- One turn of the search by bytes. A gap is passed first, then a quoted text or one byte. -/
def byBytes (text : Bytes) (s : Search) : Turn :=
  let c := (Cursor.mk text s.position).skipGap
  match c.peekByte? with
  | none => .found text.length
  | some b =>
      if b = '('.toUInt8 then .onward ⟨c.position + 1, s.opened + 1⟩
      else if b = ')'.toUInt8 then s.close c.position (c.position + 1)
      else
        match c.quote? with
        | some _ => .onward ⟨c.skipQuoted.2.position, s.opened⟩
        | none => .onward ⟨c.position + 1, s.opened⟩

/-- One turn of the search by tokens. -/
def byTokens (text : Bytes) (s : Search) : Turn :=
  match (Cursor.mk text s.position).next with
  | (none, _) => .found text.length
  | (some t, c) =>
      if t = .sym '(' then .onward ⟨c.position, s.opened + 1⟩
      else if t = .sym ')' then s.close (c.position - 1) c.position
      else .onward ⟨c.position, s.opened⟩

/-! ## Runs -/

/-- The states that a search comes to. -/
inductive Reaches (turn : Search → Turn) : Search → Search → Prop where
  | refl (s : Search) : Reaches turn s s
  | step {s m s' : Search} : turn s = .onward m → Reaches turn m s' → Reaches turn s s'

/-- The search ends, with this offset. -/
def Finds (turn : Search → Turn) (s : Search) (n : Nat) : Prop :=
  ∃ s', Reaches turn s s' ∧ turn s' = .found n

variable {turn : Search → Turn} {s m s' : Search} {n k : Nat}

theorem Finds.here (h : turn s = .found n) : Finds turn s n := ⟨s, .refl s, h⟩

theorem Finds.later (h : turn s = .onward m) (hm : Finds turn m n) : Finds turn s n := by
  obtain ⟨s', hreach, hfound⟩ := hm
  exact ⟨s', .step h hreach, hfound⟩

/-- A search comes to one end only. -/
theorem Finds.unique (h : Finds turn s n) (h' : Finds turn s k) : n = k := by
  obtain ⟨u, hu, hn⟩ := h
  obtain ⟨v, hv, hk⟩ := h'
  induction hu with
  | refl s =>
      cases hv with
      | refl =>
          rw [hn] at hk
          injection hk
      | step hturn _ =>
          rw [hn] at hturn
          cases hturn
  | step hturn _ ih =>
      cases hv with
      | refl =>
          rw [hk] at hturn
          cases hturn
      | step hturn' hv =>
          rw [hturn] at hturn'
          cases hturn'
          exact ih hn hv

/-- What every turn keeps holds in every state that is reached. -/
theorem Reaches.invariant {I : Search → Prop} (hstep : ∀ {s m}, turn s = .onward m → I s → I m)
    (h : Reaches turn s s') (hs : I s) : I s' := by
  induction h with
  | refl => exact hs
  | step hturn _ ih => exact ih (hstep hturn hs)

/-! ## The count -/

/-- A `)` that does not end the search closes one parenthesis of several. -/
theorem opened_of_close {at_ behind : Nat} (h : s.close at_ behind = .onward m)
    (hs : 1 ≤ s.opened) : 1 ≤ m.opened := by
  unfold close at h
  split at h
  · cases h
  · next hne =>
      cases h
      show 1 ≤ s.opened - 1
      omega

/-- As long as the search goes on, a parenthesis is open. So the counter is never taken below one and needs no
    sign. -/
theorem opened_of_byBytes {text : Bytes} (h : byBytes text s = .onward m) (hs : 1 ≤ s.opened) :
    1 ≤ m.opened := by
  unfold byBytes at h
  simp only at h
  split at h
  · cases h
  · split at h
    · cases h
      show 1 ≤ s.opened + 1
      omega
    · split at h
      · exact opened_of_close h hs
      · split at h
        · cases h
          exact hs
        · cases h
          exact hs

/-- Where a `)` is met at least one parenthesis is open, so the count never falls below zero. -/
theorem opened_of_reaches {text : Bytes} (h : Reaches (byBytes text) s s') (hs : 1 ≤ s.opened) :
    1 ≤ s'.opened :=
  h.invariant (I := fun s => 1 ≤ s.opened) opened_of_byBytes hs

/-! ## What the loops find -/

theorem close_last (p : Nat) (at_ behind : Nat) : close ⟨p, 1⟩ at_ behind = .found at_ := rfl

/-- Inside another parenthesis a `)` is passed. -/
theorem close_inner (p outer : Nat) (at_ behind : Nat) :
    close ⟨p, ((outer + 1 : Nat) : Int) + 1⟩ at_ behind = .onward ⟨behind, (outer : Int) + 1⟩ := by
  have hcount : ((outer + 1 : Nat) : Int) + 1 - 1 = (outer : Int) + 1 := by omega
  have hne : ¬ (outer : Int) + 1 = 0 := by omega
  simp only [close, hcount, if_neg hne]

variable {text rest : Bytes} {b : UInt8} {position : Nat}

/-- Where a byte comes next behind a gap, it and what follows it are an end of the text. -/
theorem suffix_of_skipGap (h : skipGap (text.drop position) = b :: rest) : b :: rest <:+ text :=
  h ▸ (skipGap_suffix _).trans (List.drop_suffix _ _)

/-- Where only a gap is left the search ends with the text. -/
theorem byBytes_nil (h : skipGap (text.drop position) = []) (n : Int) :
    byBytes text ⟨position, n⟩ = .found text.length := by
  have hrest : (Cursor.mk text position).skipGap.rest = [] :=
    (Cursor.rest_skipGap ⟨text, position⟩).trans h
  unfold byBytes
  simp only [Cursor.peekByte?_eq_head?, hrest, List.head?_nil]

/-- A turn in front of a byte. -/
theorem byBytes_cons (h : skipGap (text.drop position) = b :: rest) (n : Int) :
    byBytes text ⟨position, n⟩ =
      if b = '('.toUInt8 then .onward ⟨offset text rest, n + 1⟩
      else if b = ')'.toUInt8 then
        close ⟨position, n⟩ (offset text (b :: rest)) (offset text rest)
      else
        match Quote.ofByte? b with
        | some q => .onward ⟨offset text (q.split rest).2, n⟩
        | none => .onward ⟨offset text rest, n⟩ := by
  have hrest : (Cursor.mk text position).skipGap.rest = b :: rest :=
    (Cursor.rest_skipGap ⟨text, position⟩).trans h
  have hposition : (Cursor.mk text position).skipGap.position = offset text (b :: rest) := by
    rw [Cursor.position_skipGap]
    exact congrArg (offset text) h
  have hpeek : (Cursor.mk text position).skipGap.peekByte? = some b := by
    rw [Cursor.peekByte?_eq_head?, hrest, List.head?_cons]
  have hquote : (Cursor.mk text position).skipGap.quote? = Quote.ofByte? b := by
    rw [Cursor.quote?, hpeek]
    rfl
  unfold byBytes
  simp only [hpeek, hquote, hposition, offset_cons (suffix_of_skipGap h)]
  cases hq : Quote.ofByte? b with
  | none => rfl
  | some q =>
      have hskip : (Cursor.mk text position).skipGap.skipQuoted.2.position =
          offset text (q.split rest).2 := by
        unfold Cursor.skipQuoted
        rw [hquote, hq, hrest]
        rfl
      simp only [hskip]

/-- The search over bytes comes to the end that `fromClosing` tells. -/
theorem byBytes_finds (text : Bytes) (position depth : Nat) :
    Finds (byBytes text) ⟨position, depth + 1⟩
      (offset text (fromClosing depth (text.drop position))) := by
  generalize hbs : text.drop position = bs
  -- One case for each turn of the search, and either the turn finds the end or
  -- the next one starts behind it.
  fun_induction fromClosing depth bs generalizing position with
  | case1 depth bs h =>
      subst hbs
      exact .here (byBytes_nil h _)
  | case2 depth bs rest h ih =>
      subst hbs
      have hsuffix := (List.suffix_cons _ rest).trans (suffix_of_skipGap h)
      apply Finds.later
      · rw [byBytes_cons h, if_pos rfl]
      · exact ih _ (drop_offset hsuffix)
  | case3 bs rest h ho =>
      subst hbs
      apply Finds.here
      rw [byBytes_cons h, if_neg ho, if_pos rfl]
      exact close_last _ _ _
  | case4 bs rest outer h ho ih =>
      subst hbs
      have hsuffix := (List.suffix_cons _ rest).trans (suffix_of_skipGap h)
      apply Finds.later
      · rw [byBytes_cons h, if_neg ho, if_pos rfl]
        exact close_inner _ _ _ _
      · exact ih _ (drop_offset hsuffix)
  | case5 depth bs b rest h ho hc q hq ih =>
      subst hbs
      have hsuffix := (List.suffix_cons _ rest).trans (suffix_of_skipGap h)
      apply Finds.later
      · rw [byBytes_cons h, if_neg ho, if_neg hc, hq]
      · exact ih _ (drop_offset ((Quote.split_rest_suffix q rest).trans hsuffix))
  | case6 depth bs b rest h ho hc hq ih =>
      subst hbs
      have hsuffix := (List.suffix_cons _ rest).trans (suffix_of_skipGap h)
      apply Finds.later
      · rw [byBytes_cons h, if_neg ho, if_neg hc, hq]
      · exact ih _ (drop_offset hsuffix)

/-- The search over tokens ends with the text, too. -/
theorem byTokens_none (h : Bytes.nextToken? (text.drop position) = none) (n : Int) :
    byTokens text ⟨position, n⟩ = .found text.length := by
  have hnext : (Cursor.mk text position).next = (none, (Cursor.mk text position).moveTo []) :=
    Cursor.next_eq_none_iff.mpr ⟨h, rfl⟩
  unfold byTokens
  rw [hnext]

/-- A turn in front of a token. -/
theorem byTokens_some {t : Token} (h : Bytes.nextToken? (text.drop position) = some (t, rest)) (n : Int) :
    byTokens text ⟨position, n⟩ =
      if t = .sym '(' then .onward ⟨offset text rest, n + 1⟩
      else if t = .sym ')' then
        close ⟨position, n⟩ (offset text rest - 1) (offset text rest)
      else .onward ⟨offset text rest, n⟩ := by
  have hnext : (Cursor.mk text position).next = (some t, (Cursor.mk text position).moveTo rest) :=
    Cursor.next_eq_some_iff.mpr ⟨rest, h, rfl⟩
  unfold byTokens
  rw [hnext]
  rfl

/-- The search over tokens comes to the same end. Quoted text and comments hold no token that counts. -/
theorem byTokens_finds (text : Bytes) (position depth : Nat) :
    Finds (byTokens text) ⟨position, depth + 1⟩
      (offset text (fromClosing depth (text.drop position))) := by
  generalize hbs : text.drop position = bs
  fun_induction Bytes.tokens bs generalizing position depth with
  | case2 bs h =>
      subst hbs
      rw [fromClosing_of_nextToken?_none h]
      exact .here (byTokens_none h _)
  | case1 bs t rest h ih =>
      subst hbs
      have hdrop : text.drop (offset text rest) = rest :=
        drop_offset (Cursor.nextToken?_rest_suffix (c := ⟨text, position⟩) h)
      rw [fromClosing_of_nextToken? h]
      by_cases ho : t = .sym '('
      · rw [if_pos ho]
        apply Finds.later
        · rw [byTokens_some h, if_pos ho]
        · exact ih _ (depth + 1) hdrop
      · rw [if_neg ho]
        by_cases hc : t = .sym ')'
        · rw [if_pos hc]
          cases depth with
          | zero =>
              subst hc
              -- The offset behind the `)` is told by the cursor, and the end is one byte in front of it.
              have hgap := skipGap_of_nextToken?_punct h
              have hbehind := offset_cons (suffix_of_skipGap hgap)
              apply Finds.here
              rw [byTokens_some h, if_neg ho, if_pos rfl, ← hbehind, Nat.add_sub_cancel]
              simp only [hgap]
              exact close_last _ _ _
          | succ outer =>
              apply Finds.later
              · rw [byTokens_some h, if_neg ho, if_pos hc]
                exact close_inner _ _ _ _
              · exact ih _ outer hdrop
        · rw [if_neg hc]
          apply Finds.later
          · rw [byTokens_some h, if_neg ho, if_neg hc]
          · exact ih _ depth hdrop

end Search

/-! ## The end of a parenthesis -/

open Search in
/-- **A parenthesis closes where its tokens say.** From behind any offset, in the text or past its end, the
    tokens that are read one after another come to the end of the parenthesis where the search by bytes
    does, and that is the offset of the closing parenthesis. On its way the search by bytes always has a
    parenthesis open, so that it never counts below zero. -/
theorem closing_iff (c : Cursor) (opening : Nat) :
    let start : Search := ⟨opening + 1, 1⟩
    (∀ n, Finds (byTokens c.text) start n ↔ n = c.closing opening) ∧
      (∀ n, Finds (byBytes c.text) start n ↔ n = c.closing opening) ∧
      ∀ s, Reaches (byBytes c.text) start s → 1 ≤ s.opened := by
  intro start
  have htokens : Finds (byTokens c.text) start (c.closing opening) :=
    byTokens_finds c.text (opening + 1) 0
  have hbytes : Finds (byBytes c.text) start (c.closing opening) :=
    byBytes_finds c.text (opening + 1) 0
  refine ⟨?_, ?_, ?_⟩
  · intro n
    constructor
    · intro h
      exact h.unique htokens
    · rintro rfl
      exact htokens
  · intro n
    constructor
    · intro h
      exact h.unique hbytes
    · rintro rfl
      exact hbytes
  · intro s h
    exact opened_of_reaches h (Int.le_refl 1)

open Search in
/-- The outer parenthesis, on the way to whose end the inner one is open, too. From behind the quoted `)` the
    rest of the text is a quoted text that nothing closes, and past the end there is nothing to find. -/
theorem closing_iff_nested :
    let c := Cursor.start (ascii "(a, (b), ')', /* ) */ `)`) c")
    Finds (byTokens c.text) ⟨1, 1⟩ 25 ∧ Finds (byTokens c.text) ⟨11, 1⟩ 28 ∧
      Finds (byBytes c.text) ⟨1, 1⟩ 25 ∧ Finds (byBytes c.text) ⟨41, 1⟩ 28 ∧
      Reaches (byBytes c.text) ⟨1, 1⟩ ⟨5, 2⟩ ∧ (1 : Int) ≤ 2 := by
  intro c
  have hreach : Reaches (byBytes c.text) ⟨1, 1⟩ ⟨5, 2⟩ := by
    apply Reaches.step (m := ⟨2, 1⟩)
    · decide +kernel
    · apply Reaches.step (m := ⟨3, 1⟩)
      · decide +kernel
      · apply Reaches.step (m := ⟨5, 2⟩)
        · decide +kernel
        · exact .refl _
  obtain ⟨htokens, hbytes, hopened⟩ := closing_iff c 0
  refine ⟨(htokens 25).mpr ?_, ((closing_iff c 10).1 28).mpr ?_, (hbytes 25).mpr ?_,
    ((closing_iff c 40).2.1 28).mpr ?_, hreach, hopened _ hreach⟩
  · decide +kernel
  · decide +kernel
  · decide +kernel
  · decide +kernel

end SqlTables
