/-!
# `SqlTables.Json` — structured values

The form in which options and results are exchanged with other programs. A value has already been read
from its text: the names of an object's members are distinct and an integer is told apart from a number
written with a fraction or an exponent.

## Contents
- **`Json`** and the readers of its scalars (`str?`, `bool?`, `nat?`, `items?`).
- **`Json.fields?`**: the fields of a record, which may be written as an object or as the list of its
  fields.
-/

namespace SqlTables

/-- A structured value. -/
inductive Json where
  | null
  | bool (value : Bool)
  /-- A number written as an integer. -/
  | int (value : Int)
  /-- A number written in any other way; it is never taken for an integer. -/
  | decimal (literal : String)
  | str (value : String)
  | arr (items : List Json)
  | obj (members : List (String × Json))

namespace Json

/-! ## Scalars -/

/-- A text. -/
def str? : Json → Option String
  | str s => some s
  | _ => none

/-- A truth value. -/
def bool? : Json → Option Bool
  | bool b => some b
  | _ => none

/-- A number of 64 bits without sign. -/
def nat? : Json → Option Nat
  | int (.ofNat n) => if n < UInt64.size then some n else none
  | _ => none

/-- The items of a list. -/
def items? : Json → Option (List Json)
  | arr items => some items
  | _ => none

/-! ## Records -/

/-- The fields of a record in the order of `names`, none for a field that is left out. A record is an
    object, whose other members do not matter, or the list of its first fields in order. -/
def fields? (names : List String) : Json → Option (List (Option Json))
  | obj members => some (names.map (List.lookup · members))
  | arr items =>
      if items.length ≤ names.length then
        some (items.map some ++ List.replicate (names.length - items.length) none)
      else none
  | _ => none

/-- There is one entry for each name that is asked for, whether the field is there or not. -/
theorem length_fields? {names : List String} {j : Json} {fields : List (Option Json)}
    (h : j.fields? names = some fields) : fields.length = names.length := by
  cases j with
  | obj members => cases h; simp
  | arr items =>
      simp only [fields?] at h
      split at h
      · cases h
        simp only [List.length_append, List.length_map, List.length_replicate]
        omega
      · cases h
  | null | bool _ | int _ | decimal _ | str _ => cases h

end Json

end SqlTables
