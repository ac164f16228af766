/-
Following a path of steps down from a node, and putting another node in the
place where it ends. A node on the way changes in the one child that the
path goes through, and all other nodes are kept.
-/
import BlockEdit.Node.WellFormed

namespace BlockEdit.Node

def at? (n : Node) : List Step → Option Node
  | [] => some n
  | s :: path => (n.child? s).bind (·.at? path)

/-- Puts `c` in the place of the child that a step leads to. -/
def setChild (n : Node) (s : Step) (c : Node) : Node :=
  n.setGroup s.group ((n.childrenOf s.group).set s.index c)

/-- Puts `new` at the end of a path. A path that leads nowhere changes nothing. -/
def putAt (n : Node) : List Step → Node → Node
  | [], new => new
  | s :: path, new =>
    match n.child? s with
    | none => n
    | some c => n.setChild s (c.putAt path new)

theorem WellFormed.at? {n m : Node} {path : List Step} (h : n.WellFormed)
    (hm : n.at? path = some m) : m.WellFormed := by
  induction path generalizing n with
  | nil => cases hm; exact h
  | cons s path ih =>
    obtain ⟨c, hc, hm⟩ := Option.bind_eq_some_iff.1 hm
    exact ih (h.child? hc) hm

theorem WellFormed.setChild {n c : Node} (h : n.WellFormed) (s : Step) (hc : c.WellFormed) :
    (n.setChild s c).WellFormed := by
  refine h.setGroup s.group fun d hd => ?_
  rcases List.mem_or_eq_of_mem_set hd with hd | rfl
  · exact h.childrenOf hd
  · exact hc

theorem WellFormed.putAt {n new : Node} {path : List Step} (h : n.WellFormed)
    (hnew : new.WellFormed) : (n.putAt path new).WellFormed := by
  induction path generalizing n with
  | nil => exact hnew
  | cons s path ih =>
    rw [Node.putAt]
    split
    · exact h
    · next hc => exact h.setChild s (ih (h.child? hc))

theorem at?_append (n : Node) (path rest : List Step) :
    n.at? (path ++ rest) = (n.at? path).bind (·.at? rest) := by
  induction path generalizing n with
  | nil => rfl
  | cons s path ih =>
    simp only [List.cons_append, at?]
    cases n.child? s with
    | none => rfl
    | some c => exact ih c

theorem at?_singleton (n : Node) (s : Step) : n.at? [s] = n.child? s := by
  simp [at?]

theorem child?_setChild_self {n c : Node} {s : Step} (h : (n.child? s).isSome) :
    (n.setChild s c).child? s = some c := by
  rw [child?, setChild, childrenOf_setGroup_self, List.getElem?_set_self]
  simpa [child?] using h

/-- What was put at the end of a path is found there. -/
theorem at?_putAt_self {n m new : Node} {path : List Step} (h : n.at? path = some m) :
    (n.putAt path new).at? path = some new := by
  induction path generalizing n with
  | nil => rfl
  | cons s path ih =>
    obtain ⟨c, hc, hm⟩ := Option.bind_eq_some_iff.1 h
    rw [putAt, hc]
    dsimp only
    rw [at?, child?_setChild_self (by rw [hc]; rfl)]
    exact ih hm

end BlockEdit.Node
