/-
What an insertion below the root does: it succeeds just when the parent is
there and takes the child at that index, and then the parent has the child,
and the child is found at the location.
-/
import BlockEdit.Proofs.Tree.Frame
import BlockEdit.Tree.Edit

namespace BlockEdit

namespace Node

variable {n m c : Node} {s : Step}

theorem insertChild?_eq_some_iff : n.insertChild? s c = some m ↔
    s.index ≤ (n.childrenOf s.group).length ∧
      m = n.setGroup s.group ((n.childrenOf s.group).insertIdx s.index c) := by
  simp only [insertChild?]
  split
  · next h => simp [h, eq_comm]
  · next h => simp [h]

theorem childrenOf_insertChild?_self (h : n.insertChild? s c = some m) :
    m.childrenOf s.group = (n.childrenOf s.group).insertIdx s.index c := by
  obtain ⟨-, rfl⟩ := insertChild?_eq_some_iff.1 h
  exact childrenOf_setGroup_self ..

theorem length_childrenOf_insertChild?_self (h : n.insertChild? s c = some m) :
    (m.childrenOf s.group).length = (n.childrenOf s.group).length + 1 := by
  rw [childrenOf_insertChild?_self h,
    List.length_insertIdx_of_le_length (insertChild?_eq_some_iff.1 h).1]

theorem childrenOf_insertChild?_of_ne {group : String} (h : n.insertChild? s c = some m)
    (hne : group ≠ s.group) : m.childrenOf group = n.childrenOf group := by
  obtain ⟨-, rfl⟩ := insertChild?_eq_some_iff.1 h
  exact childrenOf_setGroup_of_ne _ _ hne

theorem child?_insertChild?_self (h : n.insertChild? s c = some m) : m.child? s = some c := by
  rw [child?, childrenOf_insertChild?_self h,
    List.getElem?_insertIdx_self, if_pos (insertChild?_eq_some_iff.1 h).1]

end Node

namespace Tree

variable {t t' : Tree} {parent : Location} {group : String} {i : Nat} {d : Description}

theorem nodeAt?_child (t : Tree) (l : Location) (s : Step) :
    t.nodeAt? (l.child s.group s.index) = (t.nodeAt? l).bind (·.child? s) := by
  refine (nodeAt?_along t l [s]).trans ?_
  cases t.nodeAt? l with
  | none => rfl
  | some n => exact Node.at?_singleton n s

theorem insert_root (t : Tree) (d : Description) :
    t.insert .root d = if t.isEmpty then .ok (ofDescription d) else .error .hasRoot := rfl

theorem insert_child_eq_ok_iff : t.insert (parent.child group i) d = .ok t' ↔
    ∃ n m, t.nodeAt? parent = some n ∧ n.insertChild? ⟨group, i⟩ d.toNode = some m ∧
      t'.root = t.root.map (·.putAt parent.steps m) := by
  rw [insert]
  split
  · next h => rw [Location.parentAndStep?_child] at h; cases h
  · next h =>
    rw [Location.parentAndStep?_child] at h
    cases h
    rw [modifyAt_eq_ok_iff]
    simp only [orFail_eq_ok_iff]

/-- The parent with its new child, and the child in its place. -/
theorem nodeAt?_of_insert (h : t.insert (parent.child group i) d = .ok t') :
    ∃ n m, t.nodeAt? parent = some n ∧ n.insertChild? ⟨group, i⟩ d.toNode = some m ∧
      t'.nodeAt? parent = some m ∧ t'.nodeAt? (parent.child group i) = some d.toNode := by
  obtain ⟨n, m, hn, hm, hroot⟩ := insert_child_eq_ok_iff.1 h
  have hparent := nodeAt?_self_of_putAt hroot hn
  refine ⟨n, m, hn, hm, hparent, ?_⟩
  rw [nodeAt?_child t' parent ⟨group, i⟩, hparent]
  exact Node.child?_insertChild?_self hm

/-- A child can come in by this step: the parent is there, and the index is at most the
number of children in the group. -/
def HasSlot (t : Tree) (parent : Location) (s : Step) : Prop :=
  ∃ n, t.nodeAt? parent = some n ∧ s.index ≤ (n.childrenOf s.group).length

theorem exists_insert_child_iff :
    (∃ t', t.insert (parent.child group i) d = .ok t') ↔ t.HasSlot parent ⟨group, i⟩ := by
  constructor
  · rintro ⟨t', h⟩
    obtain ⟨n, m, hn, hm, -⟩ := insert_child_eq_ok_iff.1 h
    exact ⟨n, hn, (Node.insertChild?_eq_some_iff.1 hm).1⟩
  · rintro ⟨n, hn, hi⟩
    have hm := (Node.insertChild?_eq_some_iff (c := d.toNode)).2 ⟨hi, rfl⟩
    have wf := (wellFormed_of_nodeAt? hn).insertChild? d.wellFormed_toNode hm
    exact ⟨t.putAt parent _ wf, insert_child_eq_ok_iff.2 ⟨n, _, hn, hm, rfl⟩⟩

/-- Where no child can come in, the insertion names the location that was asked for. -/
theorem insert_child_of_not_hasSlot (h : ¬ t.HasSlot parent ⟨group, i⟩) (d : Description) :
    t.insert (parent.child group i) d = .error (.noSuchLocation (parent.child group i)) := by
  cases hins : t.insert (parent.child group i) d with
  | ok t' => exact absurd (exists_insert_child_iff.1 ⟨t', hins⟩) h
  | error e =>
    rw [insert] at hins
    split at hins
    · next hroot => rw [Location.parentAndStep?_child] at hroot; cases hroot
    · rcases modifyAt_eq_error_iff.1 hins with ⟨-, rfl⟩ | ⟨n, -, hn⟩
      · rfl
      · rw [(orFail_eq_error_iff.1 hn).2]

end Tree
end BlockEdit
