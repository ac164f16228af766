/-
JSON values as a text writes them down. The fields of an object stay in
their written order and a repeated field is kept, and a number remembers
whether it was written as an integer: both matter to those who read typed
data out of a value (`Json.Reading`).
-/
namespace BlockEdit

inductive Numeral where
  | whole (value : Int)
  /-- Written with a point or an exponent: a sign, and `mantissa · 10 ^ exponent`. -/
  | decimal (negative : Bool) (mantissa : Nat) (exponent : Int)
deriving DecidableEq, Repr

inductive Json where
  | null
  | bool (value : Bool)
  | number (value : Numeral)
  | string (value : String)
  | array (items : List Json)
  | object (fields : List (String × Json))
deriving Inhabited

namespace Json

mutual
/-- How deep values are nested in this one, itself included. -/
def depth : Json → Nat
  | array items => itemsDepth items + 1
  | object fields => fieldsDepth fields + 1
  | _ => 1

def itemsDepth : List Json → Nat
  | [] => 0
  | item :: items => max item.depth (itemsDepth items)

def fieldsDepth : List (String × Json) → Nat
  | [] => 0
  | (_, value) :: fields => max value.depth (fieldsDepth fields)
end

theorem depth_le_itemsDepth {items : List Json} {item : Json} (h : item ∈ items) :
    item.depth ≤ itemsDepth items := by
  induction items with
  | nil => cases h
  | cons i items ih =>
    rw [itemsDepth]
    rcases List.mem_cons.1 h with rfl | h
    · exact Nat.le_max_left ..
    · exact Nat.le_trans (ih h) (Nat.le_max_right ..)

theorem depth_le_fieldsDepth {fields : List (String × Json)} {k : String} {value : Json}
    (h : (k, value) ∈ fields) : value.depth ≤ fieldsDepth fields := by
  induction fields with
  | nil => cases h
  | cons f fields ih =>
    obtain ⟨k', v⟩ := f
    rw [fieldsDepth]
    rcases List.mem_cons.1 h with h | h
    · cases h; exact Nat.le_max_left ..
    · exact Nat.le_trans (ih h) (Nat.le_max_right ..)

end Json
end BlockEdit
