/-
How many children a group may have: at least `min`, and at most `max` if
there is a bound.

A count is below the minimum, within the bounds or above the maximum, and
where the minimum is not above the maximum it is exactly one of them
(`allows_iff`); a group that is short of children then has room for one
more (`takesAnother_of_shortfall`).
-/
namespace BlockEdit

structure Bounds where
  min : Nat
  max : Option Nat
deriving DecidableEq, Repr

namespace Bounds

/-- Any number of children, also none. -/
def unbounded : Bounds := ⟨0, none⟩

def single : Bounds := ⟨1, some 1⟩

/-- The number of children wanting to the minimum. -/
def shortfall (c : Bounds) (count : Nat) : Nat := c.min - count

def isExceededBy (c : Bounds) (count : Nat) : Bool := c.max.any (· < count)

def allows (c : Bounds) (count : Nat) : Bool := c.shortfall count == 0 && !c.isExceededBy count

/-- One child more than `count` is not too many. -/
def takesAnother (c : Bounds) (count : Nat) : Bool := !c.isExceededBy (count + 1)

/-- The minimum is not above the maximum. -/
def Satisfiable (c : Bounds) : Prop := ∀ max ∈ c.max, c.min ≤ max

theorem isExceededBy_eq_false_iff {c : Bounds} {count : Nat} :
    c.isExceededBy count = false ↔ ∀ max ∈ c.max, count ≤ max := by
  cases h : c.max <;> simp [isExceededBy, h]

theorem allows_iff {c : Bounds} {count : Nat} :
    c.allows count = true ↔ c.min ≤ count ∧ ∀ max ∈ c.max, count ≤ max := by
  rw [allows, Bool.and_eq_true, Bool.not_eq_true', isExceededBy_eq_false_iff, beq_iff_eq, shortfall,
    Nat.sub_eq_zero_iff_le]

theorem takesAnother_iff {c : Bounds} {count : Nat} :
    c.takesAnother count = true ↔ ∀ max ∈ c.max, count + 1 ≤ max := by
  rw [takesAnother, Bool.not_eq_true', isExceededBy_eq_false_iff]

theorem satisfiable_iff {c : Bounds} : c.Satisfiable ↔ c.isExceededBy c.min = false :=
  isExceededBy_eq_false_iff.symm

theorem takesAnother_of_shortfall {c : Bounds} {count : Nat} (h : c.Satisfiable)
    (hm : 0 < c.shortfall count) : c.takesAnother count = true := by
  rw [takesAnother_iff]
  intro max hmax
  have := h max hmax
  rw [shortfall] at hm
  omega

end Bounds
end BlockEdit
