/-
Records of what happens on the way to a result, and results that come with
such records. A record of a drag holds the place that it is about. Among the
details, which are texts, this place is left out.
-/
import BlockEdit.Location
import BlockEdit.TypeName

namespace BlockEdit

inductive Event where
  /-- A type was defined before, so that the definition in this grammar is not used. -/
  | shadowedType (grammar : String) (type : TypeName)
  /-- An alternative type leads back to itself. -/
  | alternativeLoop (type : TypeName)
  | builtGrammar (grammars types : Nat)
  | inspectedTree (faults : Nat)
  | inspectedSubtree (faults depth : Nat)
  | triedDrop (location : Location) (alternatives : Nat)
  | judgedTarget (location : Location) (valid : Bool)
deriving DecidableEq, Repr

namespace Event

inductive Level where
  | warn
  | debug
  | trace
deriving DecidableEq, Repr

def level : Event → Level
  | shadowedType .. | alternativeLoop .. => .warn
  | builtGrammar .. | judgedTarget .. => .debug
  | inspectedTree .. | inspectedSubtree .. | triedDrop .. => .trace

def message : Event → String
  | shadowedType .. => "Type already defined by an earlier grammar, ignoring"
  | alternativeLoop .. => "Alternative chain loops back onto itself, lookups through it fail closed"
  | builtGrammar .. => "Built grammar"
  | inspectedTree .. => "Validated tree"
  | inspectedSubtree .. => "Validated subtree"
  | triedDrop .. => "Validating hypothetical drop"
  | judgedTarget .. => "Computed drop target state"

/-- The named details, as texts, but for the place. -/
def details : Event → List (String × String)
  | shadowedType grammar type => [("grammar", grammar), ("type_name", type.display)]
  | alternativeLoop type => [("type_name", type.display)]
  | builtGrammar grammars types => [("grammars", toString grammars), ("types", toString types)]
  | inspectedTree faults => [("errors", toString faults)]
  | inspectedSubtree faults depth => [("errors", toString faults), ("depth", toString depth)]
  | triedDrop _ alternatives => [("alternatives", toString alternatives)]
  | judgedTarget _ valid => [("state", if valid then "ValidTarget" else "InvalidTarget")]

end Event

/-- A result, and what was recorded on the way to it. -/
structure Logged (α : Type) where
  value : α
  events : List Event
deriving DecidableEq, Repr

namespace Logged

variable {α : Type}

/-- Asks one after the other and stops at the first that says yes. -/
def any (f : α → Logged Bool) : List α → Logged Bool
  | [] => ⟨false, []⟩
  | a :: as =>
    let answer := f a
    if answer.value then answer
    else
      let rest := any f as
      ⟨rest.value, answer.events ++ rest.events⟩

theorem any_value (f : α → Logged Bool) (as : List α) :
    (any f as).value = as.any fun a => (f a).value := by
  induction as with
  | nil => rfl
  | cons a as ih =>
    rw [any, List.any_cons]
    dsimp only
    split
    · next h => rw [h]; rfl
    · next h => rw [Bool.not_eq_true] at h; rw [h, Bool.false_or]; exact ih

end Logged
end BlockEdit
