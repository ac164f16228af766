/-
What a deletion does to a tree, and that `Location.afterRemoval` foretells it
without a look at the tree: a location that it does not drop leads afterwards,
under its new reading, where it led before (`nodeAt?_delete`).

A node that is not above the removed one is the very same afterwards. One
that is above it has lost a descendant, so of that one just the head is the
same. Between these two lies the parent, the only node with fewer children.
-/
import BlockEdit.Proofs.Location.Removal
import BlockEdit.Proofs.Tree.Frame
import BlockEdit.Proofs.Tree.Insertion

namespace BlockEdit

/-! ## One child less -/

namespace Node

/-- The two nodes have the same type, the same properties and the names of the same groups,
all in the same order. -/
structure SameHead (m n : Node) : Prop where
  name : m.name = n.name
  properties : m.properties = n.properties
  groups : Entries.keys m.groups = Entries.keys n.groups

variable {n m c : Node} {r s : Step}

theorem sameHead_of_frame_eq (h : m.frame = n.frame) : m.SameHead n where
  name := name_of_frame_eq h
  properties := properties_of_frame_eq h
  groups := keys_groups_of_frame_eq h

theorem removeChild?_eq_some_iff : n.removeChild? r = some m ↔
    r.index < (n.childrenOf r.group).length ∧
      m = n.setGroup r.group ((n.childrenOf r.group).eraseIdx r.index) := by
  simp only [removeChild?]
  split
  · next h => simp [h, eq_comm]
  · next h => simp [h]

theorem exists_removeChild?_iff : (∃ m, n.removeChild? r = some m) ↔ (n.child? r).isSome := by
  simp only [removeChild?_eq_some_iff, exists_and_left, exists_eq, and_true, child?,
    isSome_getElem?]

theorem sameHead_of_removeChild? (h : n.removeChild? r = some m) : m.SameHead n := by
  obtain ⟨c, hc⟩ := Option.isSome_iff_exists.1 (exists_removeChild?_iff.1 ⟨m, h⟩)
  obtain ⟨-, rfl⟩ := removeChild?_eq_some_iff.1 h
  exact ⟨rfl, rfl, Entries.keys_put_of_has (hasGroup_of_child? hc) _⟩

theorem childrenOf_of_removeChild?_self (h : n.removeChild? r = some m) :
    m.childrenOf r.group = (n.childrenOf r.group).eraseIdx r.index := by
  obtain ⟨-, rfl⟩ := removeChild?_eq_some_iff.1 h
  exact childrenOf_setGroup_self ..

theorem childrenOf_of_removeChild?_of_ne {group : String} (h : n.removeChild? r = some m)
    (hne : group ≠ r.group) : m.childrenOf group = n.childrenOf group := by
  obtain ⟨-, rfl⟩ := removeChild?_eq_some_iff.1 h
  exact childrenOf_setGroup_of_ne _ _ hne

/-- Every other child is found by its step, read anew. -/
theorem child?_of_removeChild? (h : n.removeChild? r = some m) (hs : s ≠ r) :
    m.child? (s.afterRemoval r) = n.child? s := by
  by_cases hgroup : s.group = r.group
  · by_cases hlt : r.index < s.index
    · have hlow : ¬ s.index - 1 < r.index := by omega
      have hback : s.index - 1 + 1 = s.index := by omega
      rw [Step.afterRemoval_of_later ⟨hgroup, hlt⟩, child?, child?, hgroup,
        childrenOf_of_removeChild?_self h, List.getElem?_eraseIdx, if_neg hlow, hback]
    · have hne : s.index ≠ r.index := fun hi => hs (Step.eq_of_group_of_index hgroup hi)
      have hlow : s.index < r.index := by omega
      rw [Step.afterRemoval_of_not_later fun hlater => hlt hlater.2, child?, child?, hgroup,
        childrenOf_of_removeChild?_self h, List.getElem?_eraseIdx, if_pos hlow]
  · rw [Step.afterRemoval_of_not_later fun hlater => hgroup hlater.1, child?,
      childrenOf_of_removeChild?_of_ne h hgroup, child?]

end Node

/-! ## One node less -/

namespace Tree

variable {t t' : Tree} {l l' parent : Location} {r s : Step}

theorem delete_child_eq_ok_iff : t.delete (parent.child r.group r.index) = .ok t' ↔
    ∃ n m, t.nodeAt? parent = some n ∧ n.removeChild? r = some m ∧
      t'.root = t.root.map (·.putAt parent.steps m) := by
  rw [delete]
  split
  · next h => rw [Location.parentAndStep?_child] at h; cases h
  · next h =>
    rw [Location.parentAndStep?_child] at h
    cases h
    rw [modifyAt_eq_ok_iff]
    simp only [orFail_eq_ok_iff]

theorem delete_root (t : Tree) : t.delete .root = (t.nodeAt .root).map fun _ => empty := rfl

/-- What is there can be deleted. -/
theorem exists_delete_iff : (∃ t', t.delete l = .ok t') ↔ (t.nodeAt? l).isSome := by
  rcases l.eq_root_or_exists_child with rfl | ⟨parent, r, rfl⟩
  · rw [delete_root, nodeAt]
    cases t.nodeAt? .root with
    | none => simp [Except.map]
    | some n => simp [Except.map]
  · rw [nodeAt?_child]
    constructor
    · rintro ⟨t', h⟩
      obtain ⟨n, m, hn, hm, -⟩ := delete_child_eq_ok_iff.1 h
      rw [hn, Option.bind_some]
      exact Node.exists_removeChild?_iff.1 ⟨m, hm⟩
    · intro h
      obtain ⟨c, hc⟩ := Option.isSome_iff_exists.1 h
      obtain ⟨n, hn, hc⟩ := Option.bind_eq_some_iff.1 hc
      obtain ⟨m, hm⟩ := Node.exists_removeChild?_iff.2 (Option.isSome_iff_exists.2 ⟨c, hc⟩)
      have wf := (wellFormed_of_nodeAt? hn).removeChild? hm
      exact ⟨t.putAt parent m wf, delete_child_eq_ok_iff.2 ⟨n, m, hn, hm, rfl⟩⟩

theorem nodeAt?_of_delete_root (h : t.delete .root = .ok t') (l : Location) :
    t'.nodeAt? l = none := by
  have hempty : t' = empty := by
    rw [delete_root] at h
    cases hn : t.nodeAt .root with
    | error e =>
      rw [hn] at h
      cases h
    | ok n =>
      rw [hn] at h
      exact (Except.ok.inj h).symm
  rw [hempty]
  rfl

section
variable (h : t.delete (parent.child r.group r.index) = .ok t')
include h

/-- What was deleted had a parent, and that has lost the child. -/
theorem nodeAt?_parent_of_delete : ∃ n m, t.nodeAt? parent = some n ∧
    n.removeChild? r = some m ∧ t'.nodeAt? parent = some m := by
  obtain ⟨n, m, hn, hm, hroot⟩ := delete_child_eq_ok_iff.1 h
  exact ⟨n, m, hn, hm, nodeAt?_self_of_putAt hroot hn⟩

/-- A path that goes on from the parent by another step leads where it led. -/
theorem nodeAt?_along_of_delete (hs : s ≠ r) (path : List Step) :
    t'.nodeAt? (parent.along (s.afterRemoval r :: path)) = t.nodeAt? (parent.along (s :: path)) := by
  obtain ⟨n, m, hn, hm, hroot⟩ := delete_child_eq_ok_iff.1 h
  rw [nodeAt?_along_of_putAt hroot hn, nodeAt?_along, hn, Option.bind_some, Node.at?, Node.at?,
    Node.child?_of_removeChild? hm hs]

/-- Apart from the parent, and from what is above it, nodes stay as they are. -/
theorem nodeAt?_of_delete_of_not_contains
    (hl : l.afterRemoval (parent.child r.group r.index) = some l')
    (hc : l.contains (parent.child r.group r.index) = false) : t'.nodeAt? l' = t.nodeAt? l := by
  rcases Location.afterRemoval_child_cases hl with ⟨hbelow, rfl⟩ | ⟨rfl, rfl⟩ | ⟨s, path, hs, rfl, rfl⟩
  · obtain ⟨_, m, -, -, hroot⟩ := delete_child_eq_ok_iff.1 h
    exact nodeAt?_apart_of_putAt hroot hbelow (Location.not_contains_of_child hc)
  · rw [Location.contains_child (Location.contains_refl _)] at hc
    cases hc
  · exact nodeAt?_along_of_delete h hs path

/-- All nodes but the parent have as many children as before. -/
theorem frame_of_delete_of_ne (hl : l.afterRemoval (parent.child r.group r.index) = some l')
    (hne : l ≠ parent) : (t'.nodeAt? l').map Node.frame = (t.nodeAt? l).map Node.frame := by
  rcases Location.afterRemoval_child_cases hl with ⟨hbelow, rfl⟩ | ⟨rfl, -⟩ | ⟨s, path, hs, rfl, rfl⟩
  · obtain ⟨_, m, -, -, hroot⟩ := delete_child_eq_ok_iff.1 h
    cases habove : l'.contains parent with
    | false => rw [nodeAt?_apart_of_putAt hroot hbelow habove]
    | true =>
      obtain ⟨path, rfl⟩ := Location.contains_iff_exists_along.1 habove
      cases path with
      | nil => exact absurd (Location.along_nil _).symm hne
      | cons s path => exact map_frame_above_of_putAt hroot
  · exact absurd rfl hne
  · rw [nodeAt?_along_of_delete h hs path]

theorem isSome_nodeAt?_of_delete
    (hl : l.afterRemoval (parent.child r.group r.index) = some l') :
    (t.nodeAt? l).isSome ↔ (t'.nodeAt? l').isSome := by
  by_cases hne : l = parent
  · subst hne
    rw [Location.self_afterRemoval_child] at hl
    cases hl
    obtain ⟨n, m, hn, -, hm⟩ := nodeAt?_parent_of_delete h
    rw [hn, hm]
    exact Iff.rfl
  · have hframe := congrArg Option.isSome (frame_of_delete_of_ne h hl hne)
    rw [Option.isSome_map, Option.isSome_map] at hframe
    rw [hframe]

/-- All nodes keep their heads. -/
theorem sameHead_of_delete (hl : l.afterRemoval (parent.child r.group r.index) = some l')
    {n : Node} (hn : t.nodeAt? l = some n) : ∃ m, t'.nodeAt? l' = some m ∧ m.SameHead n := by
  by_cases hne : l = parent
  · subst hne
    rw [Location.self_afterRemoval_child] at hl
    cases hl
    obtain ⟨n', m, hn', hm, hparent⟩ := nodeAt?_parent_of_delete h
    rw [hn] at hn'
    cases hn'
    exact ⟨m, hparent, Node.sameHead_of_removeChild? hm⟩
  · have hframe := frame_of_delete_of_ne h hl hne
    rw [hn, Option.map_some] at hframe
    obtain ⟨m, hm, hsame⟩ := Option.map_eq_some_iff.1 hframe
    exact ⟨m, hm, Node.sameHead_of_frame_eq hsame⟩

end

/-- **Locations across a deletion.** What is there can be deleted. Just the locations in its
subtree are dropped then. Any other location leads somewhere, under its new reading, just when
it did before: to the very same node, or, if it leads to a node above the deleted one, to a
node with the same head. And each location of the new tree is the new reading of just one
location of the old. -/
theorem nodeAt?_delete {removed : Location} (hr : (t.nodeAt? removed).isSome) :
    ∃ t', t.delete removed = .ok t' ∧
      (∀ l, (l.afterRemoval removed = none ↔ removed.contains l = true) ∧
        ∀ l', l.afterRemoval removed = some l' →
          ((t.nodeAt? l).isSome ↔ (t'.nodeAt? l').isSome) ∧
          (l.contains removed = false → t'.nodeAt? l' = t.nodeAt? l) ∧
          (l.contains removed = true → ∀ n m, t.nodeAt? l = some n → t'.nodeAt? l' = some m →
            m.SameHead n)) ∧
      ∀ l', (t'.nodeAt? l').isSome →
        ∃ l, ((t.nodeAt? l).isSome ∧ l.afterRemoval removed = some l') ∧
          ∀ k, (t.nodeAt? k).isSome ∧ k.afterRemoval removed = some l' → k = l := by
  obtain ⟨t', h⟩ := exists_delete_iff.2 hr
  have hkeeps : ∀ l l', l.afterRemoval removed = some l' →
      ((t.nodeAt? l).isSome ↔ (t'.nodeAt? l').isSome) ∧
      (l.contains removed = false → t'.nodeAt? l' = t.nodeAt? l) ∧
      (l.contains removed = true → ∀ n m, t.nodeAt? l = some n → t'.nodeAt? l' = some m →
        m.SameHead n) := by
    intro l l' hl
    rcases removed.eq_root_or_exists_child with rfl | ⟨parent, r, rfl⟩
    · cases hl
    · refine ⟨isSome_nodeAt?_of_delete h hl, nodeAt?_of_delete_of_not_contains h hl, ?_⟩
      intro _ n m hn hm
      obtain ⟨m', hm', hsame⟩ := sameHead_of_delete h hl hn
      rw [hm] at hm'
      cases hm'
      exact hsame
  refine ⟨t', h, fun l => ⟨Location.afterRemoval_eq_none_iff, hkeeps l⟩, fun l' hl' => ?_⟩
  have hbelow : removed ≠ .root := by
    rintro rfl
    rw [nodeAt?_of_delete_root h] at hl'
    cases hl'
  have hback : (l'.afterInsertion removed).afterRemoval removed = some l' :=
    Location.afterRemoval_eq_some_iff.2 ⟨hbelow, rfl⟩
  refine ⟨_, ⟨(hkeeps _ _ hback).1.2 hl', hback⟩, fun k hk => ?_⟩
  exact (Location.afterRemoval_eq_some_iff.1 hk.2).2

/-- A list of two items, the second with an item of its own. -/
def checklist : Description :=
  ⟨"note", "list", none, some [("items", [⟨"note", "item", none, none⟩,
    ⟨"note", "item", none, some [("items", [⟨"note", "item", some [("text", "call")], none⟩])]⟩])]⟩

/-- The item below the second is found below the first when that is gone. -/
theorem nodeAt?_delete_first_item :
    ((ofDescription checklist).nodeAt? (Location.root.child "items" 0)).isSome ∧
    ∃ t', (ofDescription checklist).delete (Location.root.child "items" 0) = .ok t' ∧
      t'.nodeAt? ((Location.root.child "items" 0).child "items" 0) =
        some ⟨⟨"note", "item"⟩, [("text", "call")], []⟩ := by
  have hr : ((ofDescription checklist).nodeAt? (Location.root.child "items" 0)).isSome := rfl
  obtain ⟨t', hdelete, hkeeps, -⟩ := nodeAt?_delete hr
  have hlater : ((Location.root.child "items" 1).child "items" 0).afterRemoval
      (Location.root.child "items" 0) = some ((Location.root.child "items" 0).child "items" 0) := rfl
  exact ⟨hr, t', hdelete, ((hkeeps _).2 _ hlater).2.1 rfl⟩

end Tree
end BlockEdit
