import SqlTables.Bytes

/-!
# `SqlTables.Text.Utf8` — reading bytes as characters

Bytes are read as UTF-8. Where they are not well formed, the longest run of bytes that starts like a
character but cannot be continued to one is read as one replacement character.

## Contents
- **`Pending`**: a character of which some bytes are still missing.
- **`start`, `step`, `finish`**: one byte at a time.
- **`decodeLossy`**: all of the bytes.
-/

namespace SqlTables.Utf8

/-- What stands for bytes that are no character. -/
def replacement : Char := '\uFFFD'

/-- A character whose first bytes have been read. The next byte has to lie between `low` and `high`,
    which keeps out needlessly long forms, surrogates and values past the last character. -/
structure Pending where
  /-- The bits read so far. -/
  value : Nat
  /-- How many bytes are wanted after the next one. -/
  more : Nat
  low : UInt8
  high : UInt8

/-- What a first byte outside ASCII announces, if a character can start with it. -/
def lead? (b : UInt8) : Option Pending :=
  if 0xC2 ≤ b ∧ b ≤ 0xDF then some ⟨b.toNat - 0xC0, 0, 0x80, 0xBF⟩
  else if b = 0xE0 then some ⟨0, 1, 0xA0, 0xBF⟩
  else if b = 0xED then some ⟨0xD, 1, 0x80, 0x9F⟩
  else if 0xE1 ≤ b ∧ b ≤ 0xEF then some ⟨b.toNat - 0xE0, 1, 0x80, 0xBF⟩
  else if b = 0xF0 then some ⟨0, 2, 0x90, 0xBF⟩
  else if b = 0xF4 then some ⟨4, 2, 0x80, 0x8F⟩
  else if 0xF1 ≤ b ∧ b ≤ 0xF3 then some ⟨b.toNat - 0xF0, 2, 0x80, 0xBF⟩
  else none

/-- The first byte of a character: what is read at once and what is left pending. -/
def start (b : UInt8) : List Char × Option Pending :=
  if b < 0x80 then ([Char.ofNat b.toNat], none)
  else
    match lead? b with
    | some p => ([], some p)
    | none => ([replacement], none)

/-- One more byte. A byte that cannot continue the pending character ends it as it stands and starts
    another one. -/
def step (state : Option Pending) (b : UInt8) : List Char × Option Pending :=
  match state with
  | none => start b
  | some p =>
      if p.low ≤ b ∧ b ≤ p.high then
        let value := p.value * 64 + (b.toNat - 0x80)
        match p.more with
        | 0 => ([Char.ofNat value], none)
        | more + 1 => ([], some ⟨value, more, 0x80, 0xBF⟩)
      else (replacement :: (start b).1, (start b).2)

/-- The end of the bytes. -/
def finish : Option Pending → List Char
  | none => []
  | some _ => [replacement]

/-- The characters that bytes are read as after what is pending. -/
def decodeFrom (state : Option Pending) : Bytes → List Char
  | [] => finish state
  | b :: rest => (step state b).1 ++ decodeFrom (step state b).2 rest

/-- The characters that bytes are read as. -/
def decodeLossy (bs : Bytes) : List Char := decodeFrom none bs

theorem decodeFrom_ascii {b : UInt8} (h : b < 0x80) (rest : Bytes) :
    decodeFrom none (b :: rest) = Char.ofNat b.toNat :: decodeFrom none rest := by
  simp [decodeFrom, step, start, h]

end SqlTables.Utf8
