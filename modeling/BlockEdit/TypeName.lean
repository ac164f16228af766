/-
The identity of a node's shape: the name of a type within a language.
Names are equal by value, so all grammars that speak of `sql.select` speak
of one shape.

Names are ordered by language and then by name, text by code points. The
order is total and equality is what it calls equal, which is what a map
with these names as keys needs.
-/
namespace BlockEdit

structure TypeName where
  language : String
  name : String
deriving DecidableEq, Repr

namespace TypeName

/-- The two parts with a dot between them; a dot in a part stays as it is. -/
def display (n : TypeName) : String := n.language ++ "." ++ n.name

instance : Ord TypeName := ⟨compareLex (compareOn language) (compareOn name)⟩

instance : Std.TransOrd TypeName :=
  inferInstanceAs (Std.TransCmp (compareLex (compareOn language) (compareOn name)))

theorem compare_eq_eq_iff {m n : TypeName} : compare m n = .eq ↔ m = n := by
  obtain ⟨l, a⟩ := m
  obtain ⟨l', a'⟩ := n
  show compareLex _ _ _ _ = _ ↔ _
  simp [compareLex, compareOn, Ordering.then_eq_eq]

instance : Std.LawfulEqOrd TypeName where
  compare_self := compare_eq_eq_iff.2 rfl
  eq_of_compare := compare_eq_eq_iff.1

theorem isLE_or_isLE (a b : TypeName) : (compare a b).isLE = true ∨ (compare b a).isLE = true := by
  have hswap : compare b a = (compare a b).swap := Std.OrientedCmp.eq_swap
  rw [hswap]
  cases compare a b with
  | lt => exact .inl rfl
  | eq => exact .inl rfl
  | gt => exact .inr rfl

theorem lt_of_isLE_of_ne {a b : TypeName} (h : (compare a b).isLE = true) (hne : a ≠ b) :
    compare a b = .lt := by
  cases hcompare : compare a b with
  | lt => rfl
  | eq => exact absurd (compare_eq_eq_iff.1 hcompare) hne
  | gt =>
    rw [hcompare] at h
    cases h

end TypeName
end BlockEdit
