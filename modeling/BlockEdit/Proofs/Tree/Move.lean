/-
What a move does, with both locations read in the tree as it is. A move takes
the node out and puts it in where the target then is, so the conditions of
the insertion speak of a tree that its caller never sees. They hold there just
when they hold of the target as it was given: the removal shifts the target
and makes room in its group by the same one place
(`hasSlot_of_delete_iff`).

After a move the node is found at the target, read anew. Taking it out there
gives what taking it out at the source gave (`move_outcomes`).
-/
import BlockEdit.Proofs.Description.RoundTrip
import BlockEdit.Proofs.Tree.Undo

namespace BlockEdit

namespace Node

variable {n m : Node} {r s : Step}

/-- A step behind the removed child moves down together with the end of its group. -/
theorem index_afterRemoval_le_iff (h : n.removeChild? r = some m) (hs : s ≠ r) :
    (s.afterRemoval r).index ≤ (m.childrenOf s.group).length ↔
      s.index ≤ (n.childrenOf s.group).length := by
  have hr := (removeChild?_eq_some_iff.1 h).1
  by_cases hgroup : s.group = r.group
  · have hlength : (m.childrenOf s.group).length = (n.childrenOf s.group).length - 1 := by
      rw [hgroup, childrenOf_of_removeChild?_self h, List.length_eraseIdx_of_lt hr]
    rw [hlength]
    rw [← hgroup] at hr
    by_cases hlt : r.index < s.index
    · rw [Step.afterRemoval_of_later ⟨hgroup, hlt⟩]
      dsimp only
      omega
    · have hne : s.index ≠ r.index := fun hi => hs (Step.eq_of_group_of_index hgroup hi)
      rw [Step.afterRemoval_of_not_later fun hlater => hlt hlater.2]
      omega
  · rw [Step.afterRemoval_of_not_later fun hlater => hgroup hlater.1,
      childrenOf_of_removeChild?_of_ne h hgroup]

end Node

namespace Tree

variable {t t' t₁ : Tree} {l l' m parent source target : Location} {r s : Step} {n : Node}

/-! ## The slot of the target -/

theorem hasSlot_iff_of_frame (h : (t'.nodeAt? l').map Node.frame = (t.nodeAt? l).map Node.frame) :
    t'.HasSlot l' s ↔ t.HasSlot l s := by
  have transfer : ∀ {t t' : Tree} {l l' : Location},
      (t'.nodeAt? l').map Node.frame = (t.nodeAt? l).map Node.frame →
        t.HasSlot l s → t'.HasSlot l' s := by
    intro t t' l l' h hslot
    obtain ⟨n, hn, hi⟩ := hslot
    rw [hn, Option.map_some] at h
    obtain ⟨m, hm, hframe⟩ := Option.map_eq_some_iff.1 h
    exact ⟨m, hm, (Node.length_childrenOf_of_frame_eq hframe s.group).symm ▸ hi⟩
  exact ⟨transfer h.symm, transfer h⟩

/-- A removal leaves the slots there are, and makes none. -/
theorem hasSlot_of_delete_iff (h : t.delete source = .ok t')
    (hl : (l.child s.group s.index).afterRemoval source = some m) :
    ∃ l' i, m = l'.child s.group i ∧ l.afterRemoval source = some l' ∧
      (t'.HasSlot l' ⟨s.group, i⟩ ↔ t.HasSlot l s) := by
  rcases source.eq_root_or_exists_child with rfl | ⟨parent, r, rfl⟩
  · cases hl
  rcases Location.child_afterRemoval_child_cases hl with ⟨rfl, hs, rfl⟩ | ⟨hne, l', hl', rfl⟩
  · refine ⟨l, _, rfl, Location.self_afterRemoval_child l r, ?_⟩
    obtain ⟨n, m, hn, hm, hparent⟩ := nodeAt?_parent_of_delete h
    simp only [HasSlot, hn, hparent, Option.some.injEq, exists_eq_left']
    exact Node.index_afterRemoval_le_iff hm hs
  · exact ⟨l', s.index, rfl, hl', hasSlot_iff_of_frame (frame_of_delete_of_ne h hl' hne)⟩

/-! ## The move -/

theorem move_of_nodeAt?_eq_none (hn : t.nodeAt? source = none) (target : Location) :
    t.move source target = .error (.noSuchLocation source) := by
  rw [move, nodeAt, hn]
  rfl

theorem move_of_nodeAt? (hn : t.nodeAt? source = some n) (target : Location) :
    t.move source target =
      if target = source then .ok t
      else match target.afterRemoval source with
        | none => .error (.moveIntoItself source target)
        | some adjusted => (t.delete source).bind (·.insert adjusted n.describe) := by
  rw [move, nodeAt, hn]
  rfl

theorem move_of_contains (hn : t.nodeAt? source = some n) (hne : target ≠ source)
    (h : source.contains target = true) :
    t.move source target = .error (.moveIntoItself source target) := by
  rw [move_of_nodeAt? hn, if_neg hne, Location.afterRemoval_eq_none_iff.2 h]

/-- A move into another place is a removal and an insertion at the target, read anew. -/
theorem move_of_not_contains (hn : t.nodeAt? source = some n)
    (h : source.contains target = false) : ∃ t₁ adjusted, t.delete source = .ok t₁ ∧
      target.afterRemoval source = some adjusted ∧
      t.move source target = t₁.insert adjusted n.describe := by
  obtain ⟨t₁, hdelete⟩ := exists_delete_iff.2 (Option.isSome_iff_exists.2 ⟨n, hn⟩)
  have hne : target ≠ source := by
    rintro rfl
    rw [Location.contains_refl] at h
    cases h
  cases ha : target.afterRemoval source with
  | none =>
    rw [Location.afterRemoval_eq_none_iff, h] at ha
    cases ha
  | some adjusted =>
    refine ⟨t₁, adjusted, hdelete, rfl, ?_⟩
    rw [move_of_nodeAt? hn, if_neg hne, ha, hdelete]
    rfl

theorem isEmpty_eq_false_of_nodeAt? (hn : t.nodeAt? l = some n) : t.isEmpty = false := by
  obtain ⟨root, hr, -⟩ := nodeAt?_eq_some_iff.1 hn
  rw [isEmpty, hr]
  rfl

/-- A node from below the root leaves the root where it is. -/
theorem move_to_root (hn : t.nodeAt? source = some n) (h : source.contains .root = false) :
    t.move source .root = .error .hasRoot := by
  obtain ⟨t₁, adjusted, hdelete, ha, hmove⟩ := move_of_not_contains hn h
  rcases source.eq_root_or_exists_child with rfl | ⟨parent, r, rfl⟩
  · cases ha
  rw [Location.root_afterRemoval_child] at ha
  cases ha
  obtain ⟨_, m, -, -, hparent⟩ := nodeAt?_parent_of_delete hdelete
  rw [hmove, insert_root, isEmpty_eq_false_of_nodeAt? hparent]
  rfl

/-- A group that is there before a removal is there afterwards. -/
theorem addGroup_after_delete {p : Node} {group : String} (h : t.delete source = .ok t₁)
    (hl : l.afterRemoval source = some l') (hp : t.nodeAt? l = some p)
    (hgroup : p.hasGroup group = true) : t₁.addGroup l' group = .ok t₁ := by
  rcases source.eq_root_or_exists_child with rfl | ⟨parent, r, rfl⟩
  · cases hl
  obtain ⟨q, hq, hsame⟩ := sameHead_of_delete h hl hp
  refine addGroup_of_hasGroup hq ?_
  rw [Node.hasGroup, Entries.has_iff, hsame.groups, ← Entries.has_iff]
  exact hgroup

/-- **What a move does.** The two locations are read in the tree as it is. There must be a node
at the source. To move it to where it is changes nothing, and it cannot be moved into itself or
to the root. Any other move is possible just when the parent of the target is there and the index
is at most the number of children in the group. Then the node, the same but for the order of
properties and groups, is at the target, read anew; and without it the tree is what it is without
the node at the source, but that the parent of the target has the group, be it empty. -/
theorem move_outcomes (t : Tree) (source target : Location) :
    (t.nodeAt? source = none → t.move source target = .error (.noSuchLocation source)) ∧
    ∀ n, t.nodeAt? source = some n →
      (target = source → t.move source target = .ok t) ∧
      (target ≠ source → source.contains target = true →
        t.move source target = .error (.moveIntoItself source target)) ∧
      (source.contains target = false → target = .root →
        t.move source target = .error .hasRoot) ∧
      ∀ (parent : Location) (s : Step), source.contains target = false →
        target = parent.child s.group s.index →
        ((∃ t', t.move source target = .ok t') ↔
          ∃ p, t.nodeAt? parent = some p ∧ s.index ≤ (p.childrenOf s.group).length) ∧
        ∀ t', t.move source target = .ok t' → ∃ adjusted m,
          target.afterRemoval source = some adjusted ∧
          t'.nodeAt? adjusted = some m ∧ m.Same n ∧
          ∃ parent' t₁ t₂, parent.afterRemoval source = some parent' ∧
            t.delete source = .ok t₁ ∧ t'.delete adjusted = .ok t₂ ∧
            t₁.addGroup parent' s.group = .ok t₂ ∧
            ∀ p, t.nodeAt? parent = some p → p.hasGroup s.group = true → t₂ = t₁ := by
  refine ⟨fun hn => move_of_nodeAt?_eq_none hn target, fun n hn => ⟨?_, ?_, ?_, ?_⟩⟩
  · rintro rfl
    rw [move_of_nodeAt? hn, if_pos rfl]
  · exact fun hne h => move_of_contains hn hne h
  · rintro h rfl
    exact move_to_root hn h
  · rintro parent s h rfl
    obtain ⟨t₁, adjusted, hdelete, ha, hmove⟩ := move_of_not_contains hn h
    obtain ⟨parent', i, rfl, hparent, hslot⟩ := hasSlot_of_delete_iff hdelete ha
    rw [hmove]
    refine ⟨exists_insert_child_iff.trans hslot, fun t' ht' => ?_⟩
    obtain ⟨_, m, -, -, -, hat⟩ := nodeAt?_of_insert ht'
    obtain ⟨t₂, hadd, hback⟩ := delete_of_insert ht'
    refine ⟨_, _, ha, hat, n.same_toNode_describe, parent', t₁, t₂, hparent, hdelete, hback, hadd,
      fun p hp hgroup => ?_⟩
    rw [addGroup_after_delete hdelete hparent hp hgroup] at hadd
    exact (Except.ok.inj hadd).symm

end Tree
end BlockEdit
