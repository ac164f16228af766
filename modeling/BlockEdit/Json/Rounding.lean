/-
The binary64 number nearest to a decimal one, in exact arithmetic. A
numeral with a point or an exponent stands for that number, so `1e2` is
100 and `1.00000000000000000001` is 1.
-/
namespace BlockEdit.Json

/-- The whole number nearest to `n / d`; of two equally near ones the even one. -/
def roundDiv (n d : Nat) : Nat :=
  let q := n / d
  let r := n % d
  if 2 * r < d then q
  else if d < 2 * r then q + 1
  else if q % 2 = 0 then q
  else q + 1

/-- Numerator and denominator of `n / d · 2 ^ (-e)`. -/
def scale (n d : Nat) (e : Int) : Nat × Nat :=
  if 0 ≤ e then (n, d * Nat.pow 2 e.toNat) else (n * Nat.pow 2 (-e).toNat, d)

/-- The binary64 number nearest to `n / d`, as `(m, e)` for `m · 2 ^ e`, the
largest numbers left aside: `e` is chosen so that `m` has 53 binary digits,
but not below -1074. -/
def nearestBinary64 (n d : Nat) : Nat × Int :=
  let e : Int := (n.log2 : Int) - (d.log2 : Int) - 52
  let (n', d') := scale n d e
  let e := max (if n' < d' * Nat.pow 2 52 then e - 1 else e) (-1074)
  let (n', d') := scale n d e
  (roundDiv n' d', e)

/-- The value of `m · 2 ^ e`, if it is whole. -/
def wholeBinary? (m : Nat) (e : Int) : Option Nat :=
  if 0 ≤ e then some (m * Nat.pow 2 e.toNat)
  else if m % Nat.pow 2 (-e).toNat = 0 then some (m / Nat.pow 2 (-e).toNat)
  else none

/-- The binary64 number nearest to `m · 10 ^ e`, if it is whole and at most
`2 ^ 63`. An exponent above 19 puts the number above that bound, and one far
below zero makes it so small that it rounds to 0. -/
def wholeUpTo2Pow63? (m : Nat) (e : Int) : Option Nat := do
  if m = 0 then return 0
  if 19 < e then none
  if (m.log2 : Int) + 1 + 3 * e < -1074 then return 0
  let (s, x) := if 0 ≤ e then nearestBinary64 (m * Nat.pow 10 e.toNat) 1
    else nearestBinary64 m (Nat.pow 10 (-e).toNat)
  let v ← wholeBinary? s x
  if v ≤ Nat.pow 2 63 then return v else none

/-- What is rounded is off by at most a half. -/
theorem roundDiv_near (n : Nat) {d : Nat} (h : 0 < d) :
    2 * n ≤ 2 * (roundDiv n d * d) + d ∧ 2 * (roundDiv n d * d) ≤ 2 * n + d := by
  have hn := Nat.div_add_mod n d
  have hr := Nat.mod_lt n h
  have hc : d * (n / d) = n / d * d := Nat.mul_comm ..
  have hs : (n / d + 1) * d = n / d * d + d := Nat.succ_mul ..
  simp only [roundDiv]
  split
  · omega
  · split
    · omega
    · split <;> omega

end BlockEdit.Json
