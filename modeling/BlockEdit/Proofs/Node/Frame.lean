/-
What is left alone when a node is put at the end of a path. A path that parts
from that one leads where it led, a path that goes on from its end leads into
the new node, and the nodes on the way change in one child only.

The `frame` of a node is what such a node keeps: all but the children
themselves. Whether a child can be put in at an index depends on the frame
alone.
-/
import BlockEdit.Node.Path

namespace BlockEdit

namespace Entries

variable {κ α β : Type} [DecidableEq κ]

/-- Changing all values and writing one commute. -/
theorem map_put (f : α → β) (es : Entries κ α) (k : κ) (a : α) :
    (es.put k a).map (fun e => (e.1, f e.2)) = put (es.map fun e => (e.1, f e.2)) k (f a) := by
  induction es with
  | nil => rfl
  | cons e es ih =>
    obtain ⟨k', a'⟩ := e
    by_cases h : k' = k
    · simp [put, h]
    · simp [put, h, ih]

/-- Writing an entry that is there already under its name keeps the names. -/
theorem keys_put_of_has {es : Entries κ α} {k : κ} (h : es.has k = true) (a : α) :
    (es.put k a).keys = es.keys := by
  rw [keys_put, if_pos (has_iff.1 h)]

end Entries

namespace Node

variable {n m c : Node} {s u : Step} {path : List Step}

/-! ## Nodes but for their children -/

/-- The node without its children, but with the number of them in each group. -/
def frame (n : Node) : TypeName × List (String × String) × List (String × Nat) :=
  (n.name, n.properties, n.groups.map fun e => (e.1, e.2.length))

theorem length_childrenOf_of_frame_eq (h : m.frame = n.frame) (group : String) :
    (m.childrenOf group).length = (n.childrenOf group).length := by
  have hlength : ∀ n : Node, (n.childrenOf group).length =
      (Entries.get? n.frame.2.2 group).getD 0 := by
    intro n
    rw [frame, Entries.get?_map, childrenOf]
    cases Entries.get? n.groups group <;> rfl
  rw [hlength m, hlength n, h]

theorem keys_groups_of_frame_eq (h : m.frame = n.frame) :
    Entries.keys m.groups = Entries.keys n.groups := by
  have hkeys : ∀ n : Node, Entries.keys n.groups = Entries.keys n.frame.2.2 := by
    intro n
    simp [frame, Entries.keys]
  rw [hkeys m, hkeys n, h]

theorem name_of_frame_eq (h : m.frame = n.frame) : m.name = n.name := congrArg (·.1) h

theorem properties_of_frame_eq (h : m.frame = n.frame) : m.properties = n.properties :=
  congrArg (·.2.1) h

/-! ## One child -/

theorem get?_groups_of_hasGroup {group : String} (h : n.hasGroup group = true) :
    Entries.get? n.groups group = some (n.childrenOf group) := by
  obtain ⟨cs, hcs⟩ := Option.isSome_iff_exists.1 h
  rw [childrenOf, hcs, Option.getD_some]

theorem get?_groups_of_not_hasGroup {group : String} (h : n.hasGroup group = false) :
    Entries.get? n.groups group = none :=
  Option.isNone_iff_eq_none.1 (Option.isSome_eq_false_iff.1 h)

theorem setGroup_setGroup (n : Node) (group : String) (cs ds : List Node) :
    (n.setGroup group cs).setGroup group ds = n.setGroup group ds := by
  simp only [setGroup, Entries.put_put]

theorem setChild_setChild (n : Node) (s : Step) (c d : Node) :
    (n.setChild s c).setChild s d = n.setChild s d := by
  simp only [setChild, childrenOf_setGroup_self, List.set_set, setGroup_setGroup]

/-- A child that is put where it is changes nothing. -/
theorem setChild_self (h : n.child? s = some c) : n.setChild s c = n := by
  obtain ⟨hlt, hc⟩ := List.getElem?_eq_some_iff.1 h
  have hset : (n.childrenOf s.group).set s.index c = n.childrenOf s.group := by
    rw [← hc, List.set_getElem_self]
  rw [setChild, hset]
  exact ensureGroup_of_hasGroup (hasGroup_of_child? h)

theorem child?_setChild_of_ne (h : u ≠ s) (c : Node) : (n.setChild s c).child? u = n.child? u := by
  by_cases hgroup : u.group = s.group
  · have hindex : s.index ≠ u.index := fun hi => h (Step.eq_of_group_of_index hgroup hi.symm)
    rw [child?, setChild, hgroup, childrenOf_setGroup_self, List.getElem?_set_ne hindex, child?,
      hgroup]
  · rw [child?, setChild, childrenOf_setGroup_of_ne _ _ hgroup, child?]

theorem frame_setChild (h : n.child? s = some c) (d : Node) : (n.setChild s d).frame = n.frame := by
  have hgroup := get?_groups_of_hasGroup (hasGroup_of_child? h)
  rw [frame, setChild, setGroup]
  dsimp only
  rw [Entries.map_put, List.length_set, Entries.put_get?]
  · rfl
  · rw [Entries.get?_map, hgroup, Option.map_some]

/-! ## A path -/

/-- The node that stands at the end of a path may be put there. -/
theorem putAt_self (h : n.at? path = some m) : n.putAt path m = n := by
  induction path generalizing n with
  | nil => exact (Option.some.inj h).symm
  | cons s path ih =>
    obtain ⟨c, hc, hm⟩ := Option.bind_eq_some_iff.1 h
    rw [putAt, hc]
    dsimp only
    rw [ih hm, setChild_self hc]

/-- Of two nodes put at the end of a path the later is there. -/
theorem putAt_putAt (n : Node) (path : List Step) (a b : Node) :
    (n.putAt path a).putAt path b = n.putAt path b := by
  induction path generalizing n with
  | nil => rfl
  | cons s path ih =>
    cases hc : n.child? s with
    | none => simp only [putAt, hc]
    | some c =>
      have hself : (n.setChild s (c.putAt path a)).child? s = some (c.putAt path a) :=
        child?_setChild_self (by rw [hc]; rfl)
      simp only [putAt, hc, hself, ih, setChild_setChild]

/-- A path can be taken in two goes. -/
theorem putAt_append (h : n.at? path = some m) (rest : List Step) (new : Node) :
    n.putAt (path ++ rest) new = n.putAt path (m.putAt rest new) := by
  induction path generalizing n with
  | nil =>
    cases h
    rfl
  | cons s path ih =>
    obtain ⟨c, hc, hm⟩ := Option.bind_eq_some_iff.1 h
    rw [List.cons_append, putAt, putAt, hc]
    dsimp only
    rw [ih hm]

/-- The first nodes on the way keep their frame. -/
theorem frame_putAt_cons (n : Node) (s : Step) (path : List Step) (m : Node) :
    (n.putAt (s :: path) m).frame = n.frame := by
  rw [putAt]
  cases hc : n.child? s with
  | none => rfl
  | some c => exact frame_setChild hc _

/-- The top node keeps its type, if the new node has the type of the one it replaces. -/
theorem name_putAt (h : n.at? path = some m) {new : Node} (hname : path = [] → new.name = m.name) :
    (n.putAt path new).name = n.name := by
  cases path with
  | nil =>
    cases h
    exact hname rfl
  | cons s path => exact name_of_frame_eq (frame_putAt_cons ..)

/-- What lies below the end of the path is what lies below the new node. -/
theorem at?_putAt_append (h : n.at? path = some m) (new : Node) (rest : List Step) :
    (n.putAt path new).at? (path ++ rest) = new.at? rest := by
  rw [at?_append, at?_putAt_self h, Option.bind_some]

/-- A node on the way has the new node below it. -/
theorem at?_putAt_of_append (n : Node) (path rest : List Step) (new : Node) :
    (n.putAt (path ++ rest) new).at? path = (n.at? path).map (·.putAt rest new) := by
  induction path generalizing n with
  | nil => rfl
  | cons s path ih =>
    rw [List.cons_append, putAt, at?, at?]
    cases hc : n.child? s with
    | none => dsimp only; rw [hc]; rfl
    | some c =>
      dsimp only
      rw [child?_setChild_self (by rw [hc]; rfl)]
      exact ih c

/-- Where two paths part, what is put at the end of one is not seen from the other. -/
theorem at?_putAt_of_parts {path' : List Step} (h : ¬ path <+: path') (h' : ¬ path' <+: path)
    (n new : Node) : (n.putAt path new).at? path' = n.at? path' := by
  induction path generalizing n path' with
  | nil => exact absurd List.nil_prefix h
  | cons s path ih =>
    cases path' with
    | nil => exact absurd List.nil_prefix h'
    | cons u path' =>
      rw [putAt]
      cases hc : n.child? s with
      | none => rfl
      | some c =>
        dsimp only
        by_cases hu : u = s
        · subst hu
          rw [at?, at?, child?_setChild_self (by rw [hc]; rfl), hc]
          refine ih (fun hp => h ?_) (fun hp => h' ?_) c
          · exact List.cons_prefix_cons.2 ⟨rfl, hp⟩
          · exact List.cons_prefix_cons.2 ⟨rfl, hp⟩
        · rw [at?, at?, child?_setChild_of_ne hu]

end Node
end BlockEdit
