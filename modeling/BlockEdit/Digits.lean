/-
Decimal digits, as they stand in numerals and in the values of integer
properties. Digits are the ten of ASCII only.
-/
namespace BlockEdit.Digits

/-- The number that a row of digits writes, the highest first. -/
def value (ds : List Char) : Nat := ds.foldl (fun n d => 10 * n + (d.toNat - 48)) 0

/-- One digit or more and nothing else, of a value up to `bound`. Leading zeros are allowed. -/
def isNumberUpTo (bound : Nat) (ds : List Char) : Bool :=
  !ds.isEmpty && ds.all Char.isDigit && value ds ≤ bound

end BlockEdit.Digits
