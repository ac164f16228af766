/-
To insert a child and take it out again. All that is left of it is the group
that it came into: a parent that did not have the group has it now, empty
(`delete_of_insert`), behind its other groups. So a deletion undoes an
insertion just where the group was there before (`insert_outcomes`).
-/
import BlockEdit.Proofs.Tree.Removal

namespace BlockEdit

namespace Entries

variable {κ α : Type} [DecidableEq κ]

/-- An entry of a new name comes last, and the others stay as they are. -/
theorem put_of_not_has {es : Entries κ α} {k : κ} (h : es.has k = false) (a : α) :
    es.put k a = es ++ [(k, a)] := by
  induction es with
  | nil => rfl
  | cons e es ih =>
    obtain ⟨k', a'⟩ := e
    by_cases hk : k' = k
    · simp [has, get?, hk] at h
    · rw [has, get?, if_neg hk] at h
      rw [put, if_neg hk, ih h, List.cons_append]

end Entries

namespace Node

variable {n m c : Node} {s : Step}

/-- An absent group is added empty, behind the others. -/
theorem ensureGroup_of_not_hasGroup {group : String} (h : n.hasGroup group = false) :
    n.ensureGroup group = { n with groups := n.groups ++ [(group, [])] } := by
  have hchildren : n.childrenOf group = [] := by
    rw [childrenOf, get?_groups_of_not_hasGroup h, Option.getD_none]
  rw [ensureGroup, setGroup, hchildren, Entries.put_of_not_has h]

theorem removeChild?_of_insertChild? (h : n.insertChild? s c = some m) :
    m.removeChild? s = some (n.ensureGroup s.group) := by
  have hlength := length_childrenOf_insertChild?_self h
  have hchildren := childrenOf_insertChild?_self h
  obtain ⟨hi, rfl⟩ := insertChild?_eq_some_iff.1 h
  refine removeChild?_eq_some_iff.2 ⟨?_, ?_⟩
  · rw [hlength]
    exact Nat.lt_succ_of_le hi
  · rw [hchildren, List.eraseIdx_insertIdx_self, setGroup_setGroup, ensureGroup]

end Node

namespace Tree

variable {t t' : Tree} {l parent : Location} {group : String} {i : Nat} {d : Description} {n : Node}

theorem addGroup_eq_ok_iff : t.addGroup l group = .ok t' ↔
    ∃ n, t.nodeAt? l = some n ∧ t'.root = t.root.map (·.putAt l.steps (n.ensureGroup group)) := by
  rw [addGroup, modifyAt_eq_ok_iff]
  simp only [Except.ok.injEq, exists_and_left, exists_eq_left']

/-- A node that has the group stays as it is, and so does the tree. -/
theorem addGroup_of_hasGroup (hn : t.nodeAt? l = some n) (h : n.hasGroup group = true) :
    t.addGroup l group = .ok t := by
  refine addGroup_eq_ok_iff.2 ⟨n, hn, ?_⟩
  rw [Node.ensureGroup_of_hasGroup h, root_of_putAt_self hn]

theorem delete_of_insert (h : t.insert (parent.child group i) d = .ok t') :
    ∃ t₁, t.addGroup parent group = .ok t₁ ∧ t'.delete (parent.child group i) = .ok t₁ := by
  obtain ⟨n, m, hn, hm, hroot⟩ := insert_child_eq_ok_iff.1 h
  have hremove := Node.removeChild?_of_insertChild? hm
  have wf := (wellFormed_of_nodeAt? hn).ensureGroup group
  refine ⟨t.putAt parent _ wf, addGroup_eq_ok_iff.2 ⟨n, hn, rfl⟩, ?_⟩
  refine (delete_child_eq_ok_iff (r := ⟨group, i⟩)).2
    ⟨m, _, nodeAt?_self_of_putAt hroot hn, hremove, ?_⟩
  exact (root_of_putAt_putAt hroot).symm

theorem insert_root_eq_ok_iff : t.insert .root d = .ok t' ↔
    t.isEmpty = true ∧ t' = ofDescription d := by
  rw [insert_root]
  split
  · next h => simp [h, eq_comm]
  · next h => simp [h]

theorem insert_root_eq_error_iff {e : EditError} : t.insert .root d = .error e ↔
    t.isEmpty = false ∧ e = .hasRoot := by
  rw [insert_root]
  split
  · next h => simp [h]
  · next h => simp [h, eq_comm]

/-- A root that is inserted and taken out again leaves the empty tree, which there was before. -/
theorem delete_root_of_insert (h : t.insert .root d = .ok t') : t'.delete .root = .ok t := by
  obtain ⟨hempty, rfl⟩ := insert_root_eq_ok_iff.1 h
  have ht : t = empty := Tree.ext (Option.isNone_iff_eq_none.1 hempty)
  rw [ht]
  rfl

/-- **What an insertion does, and what undoes it.** A root can be inserted into the empty tree
only. A child can be inserted just where its parent is there and the index is at most the number
of children in the group; all other insertions fail with the location that was asked for. The
new node is found at the location. Without it the tree is the very tree it was, if it has the
group; and if it had not, it is that tree but that the parent has the empty group behind its other
groups. -/
theorem insert_outcomes (t : Tree) (d : Description) :
    (((∃ t', t.insert .root d = .ok t') ↔ t.isEmpty = true) ∧
      (∀ e, t.insert .root d = .error e → e = .hasRoot) ∧
      ∀ t', t.insert .root d = .ok t' →
        t'.nodeAt? .root = some d.toNode ∧ t'.delete .root = .ok t) ∧
    ∀ (parent : Location) (group : String) (i : Nat),
      ((∃ t', t.insert (parent.child group i) d = .ok t') ↔
        ∃ p, t.nodeAt? parent = some p ∧ i ≤ (p.childrenOf group).length) ∧
      (∀ e, t.insert (parent.child group i) d = .error e →
        e = .noSuchLocation (parent.child group i)) ∧
      ∀ t', t.insert (parent.child group i) d = .ok t' →
        t'.nodeAt? (parent.child group i) = some d.toNode ∧
        ∃ p t₁, t.nodeAt? parent = some p ∧ t'.delete (parent.child group i) = .ok t₁ ∧
          (p.hasGroup group = true → t₁ = t) ∧
          (p.hasGroup group = false → t₁.root = t.root.map
            (·.putAt parent.steps { p with groups := p.groups ++ [(group, [])] })) := by
  refine ⟨⟨?_, ?_, fun t' h => ⟨?_, delete_root_of_insert h⟩⟩, fun parent group i =>
    ⟨exists_insert_child_iff, fun e h => ?_, fun t' h => ?_⟩⟩
  · simp only [insert_root_eq_ok_iff, exists_and_left, exists_eq, and_true]
  · exact fun e h => (insert_root_eq_error_iff.1 h).2
  · obtain ⟨-, rfl⟩ := insert_root_eq_ok_iff.1 h
    rfl
  · by_cases hslot : t.HasSlot parent ⟨group, i⟩
    · obtain ⟨t', hok⟩ := exists_insert_child_iff.2 hslot
      rw [hok] at h
      cases h
    · rw [insert_child_of_not_hasSlot hslot] at h
      exact (Except.error.inj h).symm
  · obtain ⟨p, -, hp, -, -, hat⟩ := nodeAt?_of_insert h
    obtain ⟨t₁, hadd, hdelete⟩ := delete_of_insert h
    refine ⟨hat, p, t₁, hp, hdelete, fun hgroup => ?_, fun hgroup => ?_⟩
    · rw [addGroup_of_hasGroup hp hgroup] at hadd
      exact (Except.ok.inj hadd).symm
    · obtain ⟨p', hp', hroot⟩ := addGroup_eq_ok_iff.1 hadd
      rw [hp] at hp'
      cases hp'
      rw [hroot, Node.ensureGroup_of_not_hasGroup hgroup]

/-- A first note on an item, taken off again, leaves the group of notes behind. -/
theorem insert_outcomes_first_note :
    ∃ t' t₁, (ofDescription checklist).insert ((Location.root.child "items" 0).child "notes" 0)
        ⟨"note", "item", none, none⟩ = .ok t' ∧
      t'.delete ((Location.root.child "items" 0).child "notes" 0) = .ok t₁ ∧
      t₁.nodeAt? (Location.root.child "items" 0) =
        some ⟨⟨"note", "item"⟩, [], [("notes", [])]⟩ := by
  obtain ⟨hiff, -, hundo⟩ := (insert_outcomes (ofDescription checklist)
    ⟨"note", "item", none, none⟩).2 (Location.root.child "items" 0) "notes" 0
  obtain ⟨t', h⟩ := hiff.2 ⟨_, rfl, by decide⟩
  obtain ⟨-, p, t₁, hp, hdelete, -, hleft⟩ := hundo t' h
  cases hp
  refine ⟨t', t₁, h, hdelete, ?_⟩
  rw [nodeAt?, hleft rfl]
  rfl

end Tree
end BlockEdit
