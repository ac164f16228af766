/-
Syntax trees. A tree has a root node or none; the empty tree is a program
that is yet to be begun.

The nodes of a tree are well-formed, so a location leads to one node at
most, and the type holds the proof. Two trees with the same root are the
same tree (`Tree.ext`).
-/
import BlockEdit.Description.Node
import BlockEdit.Node.Path

namespace BlockEdit

@[ext]
structure Tree where
  root : Option Node
  wellFormed : ∀ n ∈ root, n.WellFormed

instance : DecidableEq Tree := fun s t => decidable_of_iff (s.root = t.root) Tree.ext_iff.symm

namespace Tree

def empty : Tree := ⟨none, nofun⟩

/-- The tree with this root, if the node is well-formed. -/
def ofNode? (n : Node) : Option Tree :=
  if h : n.WellFormed then some ⟨some n, fun _ hm => Option.some.inj hm ▸ h⟩ else none

def ofDescription (d : Description) : Tree :=
  ⟨some d.toNode, fun _ hm => Option.some.inj hm ▸ d.wellFormed_toNode⟩

/-- The description of the root; the empty tree has none. -/
def describe (t : Tree) : Option Description := t.root.map Node.describe

/-- What comes back when a tree is handed out and in again. -/
def reload (t : Tree) : Tree :=
  match t.describe with
  | none => empty
  | some d => ofDescription d

def isEmpty (t : Tree) : Bool := t.root.isNone

def size (t : Tree) : Nat :=
  match t.root with
  | none => 0
  | some n => n.size

/-- The node that a location leads to. -/
def nodeAt? (t : Tree) (l : Location) : Option Node := t.root.bind (·.at? l.steps)

/-- The two trees differ at most in the order of properties and groups. -/
def Same (s t : Tree) : Prop := s.root.map Node.sorted = t.root.map Node.sorted

instance (s t : Tree) : Decidable (s.Same t) :=
  inferInstanceAs (Decidable (s.root.map Node.sorted = t.root.map Node.sorted))

theorem wellFormed_of_nodeAt? {t : Tree} {l : Location} {n : Node} (h : t.nodeAt? l = some n) :
    n.WellFormed := by
  obtain ⟨root, hr, hn⟩ := Option.bind_eq_some_iff.1 h
  exact (t.wellFormed root hr).at? hn

/-- The tree with another node in the place of the one at a location. -/
def putAt (t : Tree) (l : Location) (n : Node) (h : n.WellFormed) : Tree where
  root := t.root.map (·.putAt l.steps n)
  wellFormed m hm := by
    obtain ⟨root, hr, rfl⟩ := Option.map_eq_some_iff.1 hm
    exact (t.wellFormed root hr).putAt h

theorem nodeAt?_putAt_self {t : Tree} {l : Location} {m n : Node} {h : n.WellFormed}
    (hm : t.nodeAt? l = some m) : (t.putAt l n h).nodeAt? l = some n := by
  obtain ⟨root, hr, hm⟩ := Option.bind_eq_some_iff.1 hm
  simp [nodeAt?, putAt, hr, Node.at?_putAt_self hm]

end Tree
end BlockEdit
