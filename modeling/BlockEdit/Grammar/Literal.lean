/-
What the text of a property must be a literal of: a boolean, an integer of
64 bits, or any text.
-/
import BlockEdit.Digits

namespace BlockEdit

inductive Literal where
  | boolean
  | integer
  | text
deriving DecidableEq, Repr

namespace Literal

/-- An optional sign and decimal digits, from `-2 ^ 63` to `2 ^ 63 - 1`. -/
def isInteger : List Char → Bool
  | '-' :: ds => Digits.isNumberUpTo (Nat.pow 2 63) ds
  | '+' :: ds => Digits.isNumberUpTo (Nat.pow 2 63 - 1) ds
  | ds => Digits.isNumberUpTo (Nat.pow 2 63 - 1) ds

/-- The text is a literal of this kind. -/
def admits : Literal → String → Bool
  | boolean, s => s == "true" || s == "false"
  | integer, s => isInteger s.toList
  | text, _ => true

def display : Literal → String
  | boolean => "boolean"
  | integer => "integer"
  | text => "string"

end Literal
end BlockEdit
