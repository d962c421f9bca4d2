import SqlTables.Token.Gap
import SqlTables.Token.Quoted

/-!
# `SqlTables.Token.Span` — parenthesised spans

A span is cut out of the statement byte by byte: only gaps and quoted texts are passed as a whole, since
a parenthesis inside them counts for nothing. A parenthesis that is never closed spans the rest of the
statement.

## Contents
- **`fromClosing`**: the bytes from the closing parenthesis on.
- **`spanLength`** and **`Bytes.enclosed`**: the bytes inside a parenthesis and those after it.
-/

namespace SqlTables

/-- The bytes from the `)` on that closes the parenthesis just opened, where `depth` more have been
    opened since; empty if it is never closed. -/
def fromClosing (depth : Nat) (bs : Bytes) : Bytes :=
  match _h : skipGap bs with
  | [] => []
  | b :: rest =>
      if b = '('.toUInt8 then fromClosing (depth + 1) rest
      else if b = ')'.toUInt8 then
        match depth with
        | 0 => b :: rest
        | outer + 1 => fromClosing outer rest
      else
        match Quote.ofByte? b with
        | some q => fromClosing depth (q.split rest).2
        | none => fromClosing depth rest
termination_by bs.length
decreasing_by
  all_goals
    have hle := length_skipGap_le bs
    have hs := congrArg List.length ‹skipGap bs = _›
    simp only [List.length_cons] at hs
  · omega
  · omega
  · have := (Quote.split_rest_suffix ‹Quote› rest).length_le
    omega
  · omega

/-- The search for the end of a span, one byte or quoted text at a time. -/
theorem fromClosing_eq (depth : Nat) (bs : Bytes) :
    fromClosing depth bs = match skipGap bs with
      | [] => []
      | b :: rest =>
          if b = '('.toUInt8 then fromClosing (depth + 1) rest
          else if b = ')'.toUInt8 then
            match depth with
            | 0 => b :: rest
            | outer + 1 => fromClosing outer rest
          else
            match Quote.ofByte? b with
            | some q => fromClosing depth (q.split rest).2
            | none => fromClosing depth rest := by
  rw [fromClosing.eq_def]
  split <;> next h => rw [h]

/-- The end of a span is an end of the text. -/
theorem fromClosing_suffix (depth : Nat) (bs : Bytes) : fromClosing depth bs <:+ bs := by
  have step {bs rest : Bytes} {b : UInt8} (hs : skipGap bs = b :: rest) : rest <:+ bs :=
    (List.suffix_cons b rest).trans (hs ▸ skipGap_suffix bs)
  fun_induction fromClosing depth bs with
  | case1 => exact List.nil_suffix
  | case2 depth bs rest hs ih => exact ih.trans (step hs)
  | case3 bs rest hs ho => exact hs ▸ skipGap_suffix bs
  | case4 bs rest outer hs ho ih => exact ih.trans (step hs)
  | case5 depth bs b rest hs ho hc q hq ih =>
      exact ih.trans ((Quote.split_rest_suffix q rest).trans (step hs))
  | case6 depth bs b rest hs ho hc hq ih => exact ih.trans (step hs)

/-- The number of bytes inside the parenthesis that was just opened. -/
def spanLength (bs : Bytes) : Nat := bs.length - (fromClosing 0 bs).length

/-- The bytes inside the parenthesis that was just opened, and those after its end. -/
def Bytes.enclosed (bs : Bytes) : Bytes × Bytes :=
  (bs.take (spanLength bs), (fromClosing 0 bs).drop 1)

theorem enclosed_span_prefix (bs : Bytes) : bs.enclosed.1 <+: bs := List.take_prefix _ _

theorem enclosed_rest_suffix (bs : Bytes) : bs.enclosed.2 <:+ bs :=
  (List.drop_suffix _ _).trans (fromClosing_suffix 0 bs)

/-- A span and what follows it share no byte. -/
theorem length_enclosed_le (bs : Bytes) :
    bs.enclosed.1.length + bs.enclosed.2.length ≤ bs.length := by
  have h := (fromClosing_suffix 0 bs).length_le
  simp only [Bytes.enclosed, spanLength, List.length_take, List.length_drop]
  omega

end SqlTables
