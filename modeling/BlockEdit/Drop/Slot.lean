/-
Slots: the group at a parent that a location lies in, and whether something
may or must be put there. The cheap questions are about the slot alone: is
it empty, is it short of children, does it admit the cargo and have room?
The dear ones make the edit and inspect the whole tree that comes of it.

A cargo comes in one or more forms, and one that will do is enough.
-/
import BlockEdit.Inspection

namespace BlockEdit

/-- The forms that what is dragged may take, the preferred first. -/
abbrev Cargo := List Description

namespace Tree

variable (t : Tree) (g : Grammar) (l : Location) (cargo : Cargo)

/-- The group that a step from `parent` leads into, as it is declared, and the
number of children in it. -/
def declaredSlot? (parent : Location) (s : Step) : Option (GroupDecl × Nat) := do
  let n ← t.nodeAt? parent
  let type ← g.shapeOf? n
  let group ← type.group? s.group
  return (group, (n.childrenOf s.group).length)

/-- The group that the location lies in has no children, and the parent is
there. At the root: the tree is empty. -/
def slotIsEmpty : Bool :=
  match l.parentAndStep? with
  | none => t.isEmpty
  | some (parent, s) => (t.nodeAt? parent).any fun n => (n.childrenOf s.group).isEmpty

/-- The group that the location lies in has fewer children than it must. At
the root: the tree is empty. -/
def slotIsShort : Bool :=
  match l.parentAndStep? with
  | none => t.isEmpty
  | some (parent, s) =>
    (t.declaredSlot? g parent s).any fun (group, count) => 0 < group.bounds.shortfall count

/-- The group that the location lies in has room and admits a form of the
cargo. No group is asked at the root. -/
def slotTakes : Bool :=
  match l.parentAndStep? with
  | none => false
  | some (parent, s) =>
    (t.declaredSlot? g parent s).any fun (group, count) =>
      group.bounds.takesAnother count && cargo.any fun d => g.admits group d.typeName

/-! ## Trying an edit -/

/-- The edit can be made and leaves a valid tree. -/
def leavesValid : Except EditError Tree → Bool
  | .ok t => t.isValid g
  | .error _ => false

/-- The same, with the record of the inspection. -/
def tryEdit : Except EditError Tree → Logged Bool
  | .ok t =>
    let faults := t.inspect g
    ⟨faults.value.isEmpty, faults.events⟩
  | .error _ => ⟨false, []⟩

theorem tryEdit_value (edited : Except EditError Tree) :
    (tryEdit g edited).value = leavesValid g edited := by
  cases edited <;> rfl

/-- Inserting some form of the cargo leaves a valid tree. -/
def insertLeavesValid : Bool := cargo.any fun d => leavesValid g (t.insert l d)

/-- Tries the forms one after the other, until one leaves a valid tree. -/
def tryInsert : Logged Bool :=
  let tried := Logged.any (fun d => tryEdit g (t.insert l d)) cargo
  ⟨tried.value, .triedDrop l cargo.length :: tried.events⟩

theorem tryInsert_value : (t.tryInsert g l cargo).value = t.insertLeavesValid g l cargo := by
  simp [tryInsert, insertLeavesValid, Logged.any_value, tryEdit_value]

/-- Some form of the cargo in the place of the node leaves a valid tree. -/
def replaceLeavesValid : Bool := cargo.any fun d => leavesValid g (t.replace l d)

def tryReplace : Logged Bool := Logged.any (fun d => tryEdit g (t.replace l d)) cargo

theorem tryReplace_value :
    (t.tryReplace g l cargo).value = t.replaceLeavesValid g l cargo := by
  simp [tryReplace, replaceLeavesValid, Logged.any_value, tryEdit_value]

end Tree
end BlockEdit
