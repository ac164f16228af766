/-
What an edit at one location leaves alone. An edit puts another node in the
place of one (`Tree.modifyAt`), and the lemmas here say where the rest of the
tree then stands: below the location there is what is below the new node,
above it each node differs in one child, and apart from it there is no change.
If the new node has below it what the old one had, no other node changes in more
than the children it leads to (`map_frame_of_putAt`).
-/
import BlockEdit.Proofs.Location.Removal
import BlockEdit.Proofs.Node.Frame
import BlockEdit.Tree

namespace BlockEdit.Tree

variable {t t' : Tree} {l k : Location} {n m : Node}

theorem nodeAt?_eq_some_iff {t : Tree} {l : Location} {n : Node} :
    t.nodeAt? l = some n ↔ ∃ root, t.root = some root ∧ root.at? l.steps = some n :=
  Option.bind_eq_some_iff

theorem nodeAt?_along (t : Tree) (l : Location) (path : List Step) :
    t.nodeAt? (l.along path) = (t.nodeAt? l).bind (·.at? path) := by
  rw [nodeAt?, nodeAt?]
  cases t.root with
  | none => rfl
  | some root => exact Node.at?_append root l.steps path

theorem nodeAt?_along_of_putAt (hroot : t'.root = t.root.map (·.putAt l.steps m))
    (hn : t.nodeAt? l = some n) (path : List Step) : t'.nodeAt? (l.along path) = m.at? path := by
  obtain ⟨root, hr, hat⟩ := nodeAt?_eq_some_iff.1 hn
  rw [nodeAt?, hroot, hr]
  exact Node.at?_putAt_append hat m path

theorem nodeAt?_self_of_putAt (hroot : t'.root = t.root.map (·.putAt l.steps m))
    (hn : t.nodeAt? l = some n) : t'.nodeAt? l = some m := by
  have h := nodeAt?_along_of_putAt hroot hn []
  rwa [Location.along_nil] at h

theorem nodeAt?_above_of_putAt {path : List Step}
    (hroot : t'.root = t.root.map (·.putAt (l.along path).steps m)) :
    t'.nodeAt? l = (t.nodeAt? l).map (·.putAt path m) := by
  rw [nodeAt?, nodeAt?, hroot]
  cases t.root with
  | none => rfl
  | some root => exact Node.at?_putAt_of_append root l.steps path m

theorem nodeAt?_apart_of_putAt (hroot : t'.root = t.root.map (·.putAt l.steps m))
    (h : l.contains k = false) (h' : k.contains l = false) : t'.nodeAt? k = t.nodeAt? k := by
  rw [← Bool.not_eq_true, Location.contains_iff] at h h'
  rw [nodeAt?, nodeAt?, hroot]
  cases t.root with
  | none => rfl
  | some root => exact Node.at?_putAt_of_parts h h' root m

/-- The nodes above differ in one child only, and keep the number of children. -/
theorem map_frame_above_of_putAt {s : Step} {path : List Step}
    (hroot : t'.root = t.root.map (·.putAt (l.along (s :: path)).steps m)) :
    (t'.nodeAt? l).map Node.frame = (t.nodeAt? l).map Node.frame := by
  rw [nodeAt?_above_of_putAt hroot, Option.map_map]
  exact congrArg (Option.map · _) (funext fun n => Node.frame_putAt_cons n s path m)

section
variable (hn : t.nodeAt? l = some n) (hroot : t'.root = t.root.map (·.putAt l.steps m))
  (hbelow : ∀ s path, m.at? (s :: path) = n.at? (s :: path))
include hn hroot hbelow

/-- With the same nodes below the new node, what is not on the way to it stays. -/
theorem nodeAt?_of_putAt_of_not_contains (hk : k.contains l = false) :
    t'.nodeAt? k = t.nodeAt? k := by
  cases hl : l.contains k with
  | false => exact nodeAt?_apart_of_putAt hroot hl hk
  | true =>
    obtain ⟨path, rfl⟩ := Location.contains_iff_exists_along.1 hl
    cases path with
    | nil =>
      rw [Location.along_nil, Location.contains_refl] at hk
      cases hk
    | cons s path =>
      rw [nodeAt?_along_of_putAt hroot hn, hbelow, nodeAt?_along, hn, Option.bind_some]

theorem map_frame_of_putAt (hne : k ≠ l) :
    (t'.nodeAt? k).map Node.frame = (t.nodeAt? k).map Node.frame := by
  cases hk : k.contains l with
  | false => rw [nodeAt?_of_putAt_of_not_contains hn hroot hbelow hk]
  | true =>
    obtain ⟨path, rfl⟩ := Location.contains_iff_exists_along.1 hk
    cases path with
    | nil => exact absurd (Location.along_nil k).symm hne
    | cons s path => exact map_frame_above_of_putAt hroot

end

/-- A later edit of the same node is all that is seen. -/
theorem root_of_putAt_putAt {a b : Node} (hroot : t'.root = t.root.map (·.putAt l.steps a)) :
    t'.root.map (·.putAt l.steps b) = t.root.map (·.putAt l.steps b) := by
  rw [hroot, Option.map_map]
  exact congrArg (Option.map · t.root) (funext fun root => Node.putAt_putAt root l.steps a b)

/-- An edit that leaves the node as it is leaves the tree as it is. -/
theorem root_of_putAt_self (hn : t.nodeAt? l = some n) :
    t.root.map (·.putAt l.steps n) = t.root := by
  obtain ⟨root, hr, hat⟩ := nodeAt?_eq_some_iff.1 hn
  rw [hr, Option.map_some, Node.putAt_self hat]

end BlockEdit.Tree
