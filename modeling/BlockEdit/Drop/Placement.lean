/-
Placements: a wanted position, said by what is there already.
-/
import BlockEdit.Tree.Edit

namespace BlockEdit

inductive Placement where
  | inFrontOf (anchor : Location)
  | behind (anchor : Location)
  /-- At the start of a group. -/
  | startOf (parent : Location) (group : String)
  /-- At the end of a group. -/
  | endOf (parent : Location) (group : String)
deriving DecidableEq, Repr

/-- The location that a node placed there would get. The anchor or the
parent must be there, and the root has no place beside it. -/
def Placement.location (t : Tree) : Placement → Except EditError Location
  | inFrontOf anchor => do
    let _ ← t.nodeAt anchor
    if anchor.isRoot then .error (.noSuchLocation anchor) else return anchor
  | behind anchor => do
    let _ ← t.nodeAt anchor
    match anchor.parentAndStep? with
    | none => .error (.noSuchLocation anchor)
    | some (parent, s) => return parent.child s.group (s.index + 1)
  | startOf parent group => do
    let _ ← t.nodeAt parent
    return parent.child group 0
  | endOf parent group => do
    let n ← t.nodeAt parent
    return parent.child group (n.childrenOf group).length

end BlockEdit
