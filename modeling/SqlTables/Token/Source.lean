import SqlTables.Keyword
import SqlTables.Token.Lexer
import SqlTables.Token.Span

/-!
# `SqlTables.Token.Source` — anything that tokens can be read from

The extraction asks only two things of a statement: the next token, and the span of a parenthesis just
opened. Raw bytes answer both, and so does a list of tokens.

## Contents
- **`TokenSource`**: the two questions and a size that reading makes smaller.
- **Sources**: `Bytes`, and `List Token` with `closeSpan`.
- **Readers** built from the two questions: `peek?`, `accept?`, `skip`, `skipWhile`, `skipSpan`,
  `startsQuery`, each with the law that it never enlarges what is left.
-/

namespace SqlTables

/-- A source of tokens. Reading a token makes it smaller, so that reading comes to an end. -/
class TokenSource (σ : Type) where
  /-- The next token and what follows it. -/
  next? : σ → Option (Token × σ)
  /-- What stands inside the parenthesis that has just been read, and what follows its end. -/
  enclosed : σ → σ × σ
  size : σ → Nat
  size_lt_of_next? {s rest : σ} {t : Token} : next? s = some (t, rest) → size rest < size s
  size_enclosed_le (s : σ) : size (enclosed s).1 + size (enclosed s).2 ≤ size s

/-! ## Sources -/

/-- Statement text is read byte by byte, and a span is read again as a text of its own. -/
instance : TokenSource Bytes where
  next? := Bytes.nextToken?
  enclosed := Bytes.enclosed
  size := List.length
  size_lt_of_next? := length_lt_of_nextToken?
  size_enclosed_le := length_enclosed_le

/-- The tokens up to the `)` that closes the parenthesis just opened, where `depth` more have been
    opened since, and those after it. -/
def closeSpan (depth : Nat) : List Token → List Token × List Token
  | [] => ([], [])
  | t :: rest =>
      if t = .sym '(' then (closeSpan (depth + 1) rest).map (t :: ·) id
      else if t = .sym ')' then
        match depth with
        | 0 => ([], rest)
        | outer + 1 => (closeSpan outer rest).map (t :: ·) id
      else (closeSpan depth rest).map (t :: ·) id

/-- A span and what follows it have no more tokens than there were. -/
theorem length_closeSpan_le (depth : Nat) (ts : List Token) :
    (closeSpan depth ts).1.length + (closeSpan depth ts).2.length ≤ ts.length := by
  fun_induction closeSpan depth ts with
  | case1 => simp
  | case3 => simp
  | case2 | case4 | case5 =>
      simp only [Prod.map_fst, Prod.map_snd, List.length_cons, id]
      omega

/-- Tokens that have been read before are a source too. -/
instance : TokenSource (List Token) where
  next?
    | [] => none
    | t :: rest => some (t, rest)
  enclosed := closeSpan 0
  size := List.length
  size_lt_of_next? {s rest t} h := by
    cases s with
    | nil => cases h
    | cons u us => cases h; exact Nat.lt_succ_self _
  size_enclosed_le := length_closeSpan_le 0

/-! ## Readers -/

namespace TokenSource

variable {σ : Type} [TokenSource σ]

/-- The next token. -/
def peek? (s : σ) : Option Token := (next? s).map Prod.fst

/-- What follows the next token, if that is of a class. -/
def accept? (p : Token → Bool) (s : σ) : Option σ :=
  match next? s with
  | some (t, rest) => if p t then some rest else none
  | none => none

/-- What follows a token written as one character, if that comes next. -/
def acceptSym? (c : Char) (s : σ) : Option σ := accept? (· == .sym c) s

/-- What follows a keyword of a class, if that comes next. -/
def acceptKeyword? (p : Keyword → Bool) (s : σ) : Option σ := accept? (·.isKeyword p) s

/-- A token that is accepted is taken. -/
theorem size_lt_of_accept? {p : Token → Bool} {s rest : σ} (h : accept? p s = some rest) :
    size rest < size s := by
  unfold accept? at h
  split at h
  · next t r hn =>
      split at h
      · cases h
        exact size_lt_of_next? hn
      · cases h
  · cases h

/-- Passes over the next token if it is of a class. -/
def skip (p : Token → Bool) (s : σ) : σ := (accept? p s).getD s

/-- Passes over the next token, whatever it is. -/
def advance (s : σ) : σ := skip (fun _ => true) s

theorem size_skip_le (p : Token → Bool) (s : σ) : size (skip p s) ≤ size s := by
  unfold skip
  cases h : accept? p s with
  | none => exact Nat.le_refl _
  | some rest => exact Nat.le_of_lt (size_lt_of_accept? h)

theorem size_advance_le (s : σ) : size (advance s) ≤ size s := size_skip_le _ s

/-- Passes over all tokens of a class. -/
def skipWhile (p : Token → Bool) (s : σ) : σ :=
  match _h : accept? p s with
  | some rest => skipWhile p rest
  | none => s
termination_by size s
decreasing_by exact size_lt_of_accept? ‹_›

/-- Tokens are passed one at a time. -/
theorem skipWhile_eq (p : Token → Bool) (s : σ) :
    skipWhile p s = match accept? p s with
      | some rest => skipWhile p rest
      | none => s := by
  rw [skipWhile]
  split <;> next h => rw [h]

theorem size_skipWhile_le (p : Token → Bool) (s : σ) : size (skipWhile p s) ≤ size s := by
  fun_induction skipWhile p s with
  | case1 s rest h ih => exact Nat.le_trans ih (Nat.le_of_lt (size_lt_of_accept? h))
  | case2 s h => exact Nat.le_refl _

/-- Passes over all keywords of a class. -/
def skipKeywords (p : Keyword → Bool) (s : σ) : σ := skipWhile (·.isKeyword p) s

theorem size_skipKeywords_le (p : Keyword → Bool) (s : σ) : size (skipKeywords p s) ≤ size s :=
  size_skipWhile_le _ s

theorem size_span_le (s : σ) : size (enclosed s).1 ≤ size s :=
  Nat.le_trans (Nat.le_add_right _ _) (size_enclosed_le s)

theorem size_afterSpan_le (s : σ) : size (enclosed s).2 ≤ size s :=
  Nat.le_trans (Nat.le_add_left _ _) (size_enclosed_le s)

/-- Passes over a parenthesised span if one comes next. -/
def skipSpan (s : σ) : σ :=
  match acceptSym? '(' s with
  | some inside => (enclosed inside).2
  | none => s

theorem size_skipSpan_le (s : σ) : size (skipSpan s) ≤ size s := by
  unfold skipSpan
  cases h : acceptSym? '(' s with
  | none => exact Nat.le_refl _
  | some inside =>
      exact Nat.le_trans (size_afterSpan_le inside) (Nat.le_of_lt (size_lt_of_accept? h))

/-- Whether a query comes next. -/
def startsQuery (s : σ) : Bool := (peek? s).any (·.isKeyword Keyword.startsQuery)

end TokenSource

end SqlTables
