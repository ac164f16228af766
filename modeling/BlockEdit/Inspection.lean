/-
Inspection of a tree under a grammar: every tree has its list of faults, and
the valid trees are those without any.

The list follows a walk from the root. At a node it has the faults of the
properties, then those of the declared groups in the order of declaration,
each count ahead of what is below, then those of undeclared groups. The walk
ends at a node that no shape fits and at a child that its group refuses, but
it enters undeclared groups. `Node.faults_eq` is the equation of the walk.
-/
import BlockEdit.Event
import BlockEdit.Grammar
import BlockEdit.Tree.Edit
import BlockEdit.Fault

namespace BlockEdit

namespace Shape

/-- Declared properties that are missing or hold no literal of their kind, by
declaration, and then properties that are not declared, in the node's order. -/
def propertyFaults (c : Shape) (n : Node) : List Fault.Cause :=
  (c.properties.filterMap fun p =>
    match n.property? p.name with
    | none => if p.isOptional then none else some (.propertyMissing p.name)
    | some value =>
      if p.literal.admits value then none else some (.valueRefused p.name p.literal value)) ++
  (n.properties.filter fun p => (c.property? p.1).isNone).map fun p => .propertyUndeclared p.1

end Shape

namespace GroupDecl

def countFaults (group : GroupDecl) (count : Nat) : List Fault.Cause :=
  let missing := group.bounds.shortfall count
  (if 0 < missing then [.groupShort group.name missing] else []) ++
  match group.bounds.max with
  | some max => if max < count then [.groupOverfull group.name max count] else []
  | none => []

end GroupDecl

namespace Node

/-- A child, and its faults if it stands at a given location. -/
abbrev Inspected := Node × (Location → List Fault)

variable (g : Grammar)

/-- The faults of a declared group, those of the children it admits included. -/
def declaredFaults (location : Location) (group : GroupDecl) (children : List Inspected) :
    List Fault :=
  (group.countFaults children.length).map (⟨location, ·⟩) ++
  children.zipIdx.flatMap fun ((child, faultsAt), index) =>
    if g.admits group child.name then faultsAt (location.child group.name index)
    else [⟨location.child group.name index, .childRefused group.name child.name⟩]

/-- The faults of a group that is not declared, those of its children included. -/
def undeclaredFaults (location : Location) (group : String) (children : List Inspected) :
    List Fault :=
  ⟨location, .groupUndeclared group⟩ ::
  children.zipIdx.flatMap fun ((_, faultsAt), index) => faultsAt (location.child group index)

/-- The faults of a node that should have this shape. -/
def faultsAgainst (c : Shape) (n : Node) (groups : List (String × List Inspected))
    (location : Location) : List Fault :=
  (c.propertyFaults n).map (⟨location, ·⟩) ++
  (c.groups.flatMap fun group =>
    declaredFaults g location group ((Entries.get? groups group.name).getD [])) ++
  groups.flatMap fun (group, children) =>
    if (c.group? group).isSome then [] else undeclaredFaults location group children

/-- The faults of a subtree whose top node stands at the given location. -/
def faults : Node → Location → List Fault :=
  fold fun n groups location =>
    if g.defines n.name then
      match g.shapeOf? n with
      | some c => faultsAgainst g c n groups location
      | none =>
        [⟨location, .noShapeFits n.name (g.standsFor n.name)⟩]
    else [⟨location, .undefinedType n.name⟩]

/-- The groups of a node, with the faults of each child. -/
def inspectedGroups (n : Node) : List (String × List Inspected) :=
  n.groups.map fun e => (e.1, e.2.map fun c => (c, c.faults g))

theorem faults_eq (n : Node) (location : Location) :
    n.faults g location =
      if g.defines n.name then
        match g.shapeOf? n with
        | some c => faultsAgainst g c n (n.inspectedGroups g) location
        | none =>
          [⟨location, .noShapeFits n.name (g.standsFor n.name)⟩]
      else [⟨location, .undefinedType n.name⟩] := by
  rw [faults, fold_eq]
  rfl

theorem inspected_childrenOf (n : Node) (group : String) :
    (Entries.get? (n.inspectedGroups g) group).getD [] =
      (n.childrenOf group).map fun c => (c, c.faults g) := by
  rw [inspectedGroups, Entries.get?_map, childrenOf]
  cases Entries.get? n.groups group <;> rfl

end Node

namespace Tree

variable (t : Tree) (g : Grammar)

def rootFaults (root : Node) : List Fault :=
  match g.root with
  | some expected =>
    if g.covers expected root.name then [] else [⟨.root, .rootRefused expected root.name⟩]
  | none => []

def faults : List Fault :=
  match t.root with
  | some root => rootFaults g root ++ root.faults g .root
  | none => []

def isValid : Bool := (t.faults g).isEmpty

def inspect : Logged (List Fault) :=
  let faults := t.faults g
  ⟨faults, [.inspectedTree faults.length]⟩

/-- Inspects a subtree. Its faults have their locations in the whole tree. -/
def inspectAt (l : Location) : Except EditError (Logged (List Fault)) := do
  let n ← t.nodeAt l
  let faults := n.faults g l
  return ⟨faults, [.inspectedSubtree faults.length l.depth]⟩

theorem inspectAt_of_nodeAt? {t : Tree} {l : Location} {n : Node} (h : t.nodeAt? l = some n) :
    t.inspectAt g l = .ok ⟨n.faults g l, [.inspectedSubtree (n.faults g l).length l.depth]⟩ := by
  rw [inspectAt, nodeAt, h]
  rfl

end Tree

namespace Fault

/-- The faults reported on the location itself. -/
def on (fs : List Fault) (l : Location) : List Fault := fs.filter fun f => f.location = l

/-- The faults reported in the subtree at the location. -/
def within (fs : List Fault) (l : Location) : List Fault := fs.filter fun f => l.contains f.location

end Fault
end BlockEdit
