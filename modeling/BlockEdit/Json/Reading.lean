/-
Reading typed data out of JSON values: texts, lists, dictionaries, flags,
counts, and objects field by field. A reading succeeds or fails and says no
more.

The rules are lenient where writers differ. `null` is the empty text, list
or dictionary; a flag or a count may come as a text; a count may be written
with a point or an exponent if its value is whole; a word out of several may
be the name of a field instead of a text. Fields that nobody asks for are
skipped, whatever their values. A repeated field must be readable at each of
its places, and the last one counts.
-/
import BlockEdit.Entries.Sorted
import BlockEdit.Json.Lexer
import BlockEdit.Json.Rounding

namespace BlockEdit

namespace Numeral

/-- An integer from 0 and below `2 ^ 64`, or a whole number from 0 up to
`2 ^ 63` if written with a point or an exponent. -/
def count? : Numeral → Option Nat
  | whole n => if 0 ≤ n ∧ n.toNat < Nat.pow 2 64 then some n.toNat else none
  | decimal negative mantissa exponent => do
    let n ← Json.wholeUpTo2Pow63? mantissa exponent
    if negative ∧ 0 < n then none else return n

end Numeral

namespace Json

abbrev Reader (α : Type) := Json → Option α

namespace Reader

variable {α : Type}

def text : Reader String
  | .string s => some s
  | .null => some ""
  | _ => none

def flag : Reader Bool
  | .bool b => some b
  | .string "true" => some true
  | .string "false" => some false
  | _ => none

/-- Decimal digits without the plus sign that may stand in front of them. -/
def dropPlus : List Char → List Char
  | '+' :: ds => ds
  | ds => ds

/-- The value of a text of decimal digits, below `2 ^ 64`, with or without a plus sign. -/
def countText? (s : String) : Option Nat :=
  let ds := dropPlus s.toList
  if Digits.isNumberUpTo (Nat.pow 2 64 - 1) ds then some (Digits.value ds) else none

def count : Reader Nat
  | .number n => n.count?
  | .string s => countText? s
  | _ => none

section
variable (table : Entries String α)

mutual
/-- The choice that holds at the end of the fields, if `a` holds before them. A field
with the name of a word chooses anew; all others are skipped. -/
def choiceAfter (a : α) : List (String × Json) → Option α
  | [] => some a
  | (name, value) :: fields =>
    match table.get? name with
    | none => choiceAfter a fields
    | some b => do choiceAfter (← choiceWithin b value) fields

/-- A field that chooses `a` holds an object, in which the choice may change. -/
def choiceWithin (a : α) : Json → Option α
  | .object fields => choiceAfter a fields
  | _ => none
end

/-- One of the listed words: as a text, or as the name of the first field of an object. -/
def choice : Reader α
  | .string s => table.get? s
  | .object ((name, value) :: fields) => do
    let a ← table.get? name
    choiceAfter table (← choiceWithin table a value) fields
  | _ => none
end

def optional (r : Reader α) : Reader (Option α)
  | .null => some none
  | v => (r v).map some

def list (r : Reader α) : Reader (List α)
  | .array items => items.mapM r
  | .null => some []
  | _ => none

/-- The entries of an object, in ascending order of their names; of entries
with one name the last counts. -/
def dictionary (r : Reader α) : Reader (Entries String α)
  | .object fields => (fields.mapM fun f => (r f.2).map (f.1, ·)).map Entries.sorted
  | .null => some []
  | _ => none

def record (r : List (String × Json) → Option α) : Reader α
  | .object fields => r fields
  | _ => none

end Reader

/-! ## Fields of an object -/

variable {α : Type}

def valuesOf (fields : List (String × Json)) (name : String) : List Json :=
  (fields.filter fun f => f.1 = name).map (·.2)

/-- What the last field of this name holds, or none without such a field. -/
def field? (fields : List (String × Json)) (name : String) (r : Reader α) : Option (Option α) := do
  let values ← (valuesOf fields name).mapM r
  return values.getLast?

def required (fields : List (String × Json)) (name : String) (r : Reader α) : Option α := do
  let value? ← field? fields name r
  value?

def fieldOr (fields : List (String × Json)) (name : String) (default : α) (r : Reader α) :
    Option α := do
  return (← field? fields name r).getD default

/-- An optional field may be absent or `null`. -/
def optionalField (fields : List (String × Json)) (name : String) (r : Reader α) :
    Option (Option α) :=
  fieldOr fields name none (Reader.optional r)

end Json
end BlockEdit
