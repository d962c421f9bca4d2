import Mathlib.Data.List.Forall2
import SqlTables.Token.Source

/-!
# `SqlTables.Proofs.Token.Tracks` — token sequences that are read alike

Two sequences track each other if their tokens are related one by one, except that one of them may end
in minus signs that the other lacks: a span that is cut out in front of `)` and read again as a text
of its own loses a final `--`, which is a comment there.

## Contents
- **`TokenSource.tokens`**: all tokens that a source holds.
- **`Trailing`** and **`Tracks`**, with `tracks_trans`.
- **`closeSpan_tracks`**: tracking sequences have tracking spans.
- **`LawfulSource`**: sources whose spans are those of their tokens.
-/

namespace SqlTables

/-! ## The tokens of a source -/

namespace TokenSource

variable {σ : Type} [TokenSource σ]

/-- All tokens of a source in order. -/
def tokens (s : σ) : List Token :=
  match _h : next? s with
  | some (t, rest) => t :: tokens rest
  | none => []
termination_by size s
decreasing_by exact size_lt_of_next? ‹_›

/-- The tokens of a source are its next one and those of what is left. -/
theorem tokens_of_next? {s rest : σ} {t : Token} (h : next? s = some (t, rest)) :
    tokens s = t :: tokens rest := by
  rw [tokens]
  split
  · next heq => rw [h] at heq; cases heq; rfl
  · next heq => rw [h] at heq; cases heq

theorem tokens_of_next?_none {s : σ} (h : next? s = none) : tokens s = [] := by
  rw [tokens]
  split
  · next heq => rw [h] at heq; cases heq
  · rfl

/-- The first token of a source is the one that is read next. -/
theorem next?_of_tokens_cons {s : σ} {t : Token} {ts : List Token} (h : tokens s = t :: ts) :
    ∃ rest, next? s = some (t, rest) ∧ tokens rest = ts := by
  cases hn : next? s with
  | none => rw [tokens_of_next?_none hn] at h; cases h
  | some r =>
      obtain ⟨u, rest⟩ := r
      rw [tokens_of_next? hn, List.cons.injEq] at h
      exact ⟨rest, by rw [h.1], h.2⟩

/-- The tokens of a text as a source are those that the lexer finds in it. -/
theorem tokens_bytes (bs : Bytes) : tokens bs = bs.tokens := by
  fun_induction Bytes.tokens bs with
  | case1 bs t rest h ih => rw [tokens_of_next? (s := bs) h, ih]
  | case2 bs h => exact tokens_of_next?_none h

/-- The tokens of a list as a source are the list itself. -/
theorem tokens_list (ts : List Token) : tokens ts = ts := by
  induction ts with
  | nil => exact tokens_of_next?_none rfl
  | cons t ts ih => rw [tokens_of_next? (s := t :: ts) rfl, ih]

end TokenSource

/-! ## Tracking -/

/-- Nothing but minus signs. -/
def Trailing (ts : List Token) : Prop := ∀ t ∈ ts, t = .sym '-'

theorem trailing_nil : Trailing [] := by
  intro t ht
  cases ht

theorem trailing_cons {t : Token} {ts : List Token} :
    Trailing (t :: ts) ↔ t = .sym '-' ∧ Trailing ts := List.forall_mem_cons

/-- Tokens that are related one by one, up to minus signs at the end. -/
inductive Tracks (rel : Token → Token → Prop) : List Token → List Token → Prop where
  | trail {a b} : Trailing a → Trailing b → Tracks rel a b
  | next {t u a b} : rel t u → Tracks rel a b → Tracks rel (t :: a) (u :: b)

theorem tracks_nil {rel : Token → Token → Prop} : Tracks rel [] [] :=
  .trail trailing_nil trailing_nil

/-- Tokens run along with themselves where each of them is related to itself. -/
theorem tracks_refl {rel : Token → Token → Prop} (hrel : ∀ t, rel t t) (ts : List Token) :
    Tracks rel ts ts := by
  induction ts with
  | nil => exact tracks_nil
  | cons t ts ih => exact .next (hrel t) ih

/-- Tokens that are related one by one run along with each other, without a rest of minus signs. -/
theorem tracks_of_forall₂ {rel : Token → Token → Prop} {a b : List Token}
    (h : List.Forall₂ rel a b) : Tracks rel a b := by
  induction h with
  | nil => exact tracks_nil
  | cons hr _ ih => exact .next hr ih

/-- The relation tells tokens of one character apart, as any reader does. -/
def KeepsSyms (rel : Token → Token → Prop) : Prop :=
  ∀ {t u}, rel t u → ∀ c, t = .sym c ↔ u = .sym c

theorem keepsSyms_eq : KeepsSyms Eq := by
  rintro t u rfl c
  rfl

variable {rel rel' : Token → Token → Prop} {a b c : List Token}

/-- A row of minus signs runs along with nothing but minus signs. -/
theorem trailing_iff_of_tracks (hrel : KeepsSyms rel) (h : Tracks rel a b) :
    Trailing a ↔ Trailing b := by
  induction h with
  | trail ha hb => exact ⟨fun _ => hb, fun _ => ha⟩
  | next hr _ ih => rw [trailing_cons, trailing_cons, hrel hr '-', ih]

theorem tracks_symm (h : Tracks Eq a b) : Tracks Eq b a := by
  induction h with
  | trail ha hb => exact .trail hb ha
  | next hr _ ih => exact .next hr.symm ih

theorem tracks_trans {rel'' : Token → Token → Prop} (hk : KeepsSyms rel) (hk' : KeepsSyms rel')
    (hrel : ∀ {t u v}, rel t u → rel' u v → rel'' t v) (h : Tracks rel a b)
    (h' : Tracks rel' b c) : Tracks rel'' a c := by
  induction h generalizing c with
  | trail ha hb => exact .trail ha ((trailing_iff_of_tracks hk' h').mp hb)
  | @next t u a b hr h ih =>
      -- A minus sign at the end of one relation need not be at the end of the other.
      cases h' with
      | trail hb hc => exact .trail ((trailing_iff_of_tracks hk (.next hr h)).mpr hb) hc
      | next hr' h' => exact .next (hrel hr hr') (ih h')

/-! ## Spans -/

/-- Behind a parenthesis that opens the search goes on one level deeper. -/
theorem closeSpan_open (depth : Nat) (ts : List Token) :
    closeSpan depth (.sym '(' :: ts) = (closeSpan (depth + 1) ts).map (.sym '(' :: ·) id := rfl

/-- At the lowest level a parenthesis that closes is the end of the span. -/
theorem closeSpan_end (ts : List Token) : closeSpan 0 (.sym ')' :: ts) = ([], ts) := rfl

/-- Behind any other parenthesis that closes the search goes on one level higher. -/
theorem closeSpan_close (depth : Nat) (ts : List Token) :
    closeSpan (depth + 1) (.sym ')' :: ts) = (closeSpan depth ts).map (.sym ')' :: ·) id := rfl

/-- A token that is no parenthesis belongs to the span and does not change the level. -/
theorem closeSpan_other {t : Token} (ho : t ≠ .sym '(') (hc : t ≠ .sym ')') (depth : Nat)
    (ts : List Token) : closeSpan depth (t :: ts) = (closeSpan depth ts).map (t :: ·) id := by
  rw [closeSpan.eq_def]
  simp only
  rw [if_neg ho, if_neg hc]

/-- A row of minus signs belongs to the span as a whole. -/
theorem closeSpan_trailing (depth : Nat) (h : Trailing a) : closeSpan depth a = (a, []) := by
  induction a with
  | nil => rfl
  | cons t a ih =>
      obtain ⟨rfl, ha⟩ := trailing_cons.mp h
      rw [closeSpan_other (by decide) (by decide), ih ha]
      rfl

/-- In tokens that run along with each other a span ends at the same place: the spans run along with each
    other, and so does what follows them. -/
theorem closeSpan_tracks (hrel : KeepsSyms rel) (h : Tracks rel a b) (depth : Nat) :
    Tracks rel (closeSpan depth a).1 (closeSpan depth b).1 ∧
      Tracks rel (closeSpan depth a).2 (closeSpan depth b).2 := by
  induction h generalizing depth with
  | trail ha hb =>
      -- Minus signs close nothing, on either side.
      rw [closeSpan_trailing depth ha, closeSpan_trailing depth hb]
      exact ⟨.trail ha hb, tracks_nil⟩
  | @next t u a b hr h ih =>
      -- Related tokens are the same parenthesis or both none, so that the depth stays the same.
      by_cases ho : t = .sym '('
      · obtain rfl := (hrel hr '(').mp ho
        subst ho
        rw [closeSpan_open, closeSpan_open]
        exact ⟨.next hr (ih (depth + 1)).1, (ih (depth + 1)).2⟩
      · by_cases hc : t = .sym ')'
        · obtain rfl := (hrel hr ')').mp hc
          subst hc
          cases depth with
          | zero =>
              rw [closeSpan_end, closeSpan_end]
              exact ⟨tracks_nil, h⟩
          | succ outer =>
              rw [closeSpan_close, closeSpan_close]
              exact ⟨.next hr (ih outer).1, (ih outer).2⟩
        · rw [closeSpan_other ho hc,
            closeSpan_other (mt (hrel hr '(').mpr ho) (mt (hrel hr ')').mpr hc)]
          exact ⟨.next hr (ih depth).1, (ih depth).2⟩

/-- A source whose spans hold the tokens between their parentheses, up to minus signs at the end. -/
class LawfulSource (σ : Type) [TokenSource σ] : Prop where
  tokens_span (s : σ) :
    Tracks Eq (TokenSource.tokens (TokenSource.enclosed s).1) (closeSpan 0 (TokenSource.tokens s)).1
  tokens_afterSpan (s : σ) :
    TokenSource.tokens (TokenSource.enclosed s).2 = (closeSpan 0 (TokenSource.tokens s)).2

instance : LawfulSource (List Token) where
  tokens_span ts := by
    rw [TokenSource.tokens_list, TokenSource.tokens_list]
    exact tracks_refl (fun _ => rfl) _
  tokens_afterSpan ts := by
    rw [TokenSource.tokens_list, TokenSource.tokens_list]
    rfl

end SqlTables
