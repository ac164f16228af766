/-
How a node arrives that was moved. A move hands it on as a description, which
knows no order, so it arrives `sorted`, and all below it as well. That is the
node it was just where its properties and groups were in ascending order, at
every level; only a node moved to where it is stays as it stood.

The place does not matter for this. A move to the slot right behind, which
takes the node out and puts it back where it was, makes another tree of one
whose node was not in order (`nodeAt?_of_move`).
-/
import BlockEdit.Proofs.Description.NormalForm
import BlockEdit.Proofs.Tree.Move
import Mathlib.Data.List.InsertIdx

namespace BlockEdit

namespace Node

theorem sorted_of_ascending {n : Node} (h : n.Ascending) : n.sorted = n := by
  induction h with
  | @intro n properties groups children ih =>
    obtain ⟨name, props, gs⟩ := n
    rw [sorted_eq, Description.map_groups_eq_self_iff.2 ih,
      Entries.sorted_of_ascending properties, Entries.sorted_of_ascending groups]

/-- Sorting changes just what is out of order. -/
theorem sorted_eq_self_iff {n : Node} : n.sorted = n ↔ n.Ascending := by
  constructor
  · intro h
    rw [← h]
    exact n.ascending_sorted
  · exact sorted_of_ascending

/-- A child taken out, and another put in where it was, is a child replaced. -/
theorem insertChild?_of_removeChild? {n m : Node} {s : Step} (h : n.removeChild? s = some m)
    (c : Node) : m.insertChild? s c = some (n.setChild s c) := by
  have hchildren := childrenOf_of_removeChild?_self h
  obtain ⟨hi, rfl⟩ := removeChild?_eq_some_iff.1 h
  refine insertChild?_eq_some_iff.2 ⟨?_, ?_⟩
  · rw [hchildren, List.length_eraseIdx_of_lt hi]
    omega
  · rw [hchildren, List.insertIdx_eraseIdx_self (by omega), setGroup_setGroup, setChild]

end Node

namespace Location

/-- Where a node that is moved to `target` is found afterwards. -/
def arrival? (source target : Location) : Option Location :=
  if target = source then some source else target.afterRemoval source

theorem arrival?_of_ne {source target : Location} (h : target ≠ source) :
    source.arrival? target = target.afterRemoval source := if_neg h

/-- The slot right behind a node is another one, and not below it. -/
theorem child_not_contains_next (l : Location) (s : Step) :
    (l.child s.group s.index).contains (l.child s.group (s.index + 1)) = false := by
  rw [← Bool.not_eq_true]
  intro h
  rcases eq_or_contains_of_contains_child (s := ⟨s.group, s.index + 1⟩) h with he | hc
  · have hindex := (child_inj he).2.2
    dsimp only at hindex
    omega
  · rw [child_not_contains] at hc
    cases hc

/-- Without the node, the slot behind it is its own. -/
theorem next_afterRemoval (l : Location) (s : Step) :
    (l.child s.group (s.index + 1)).afterRemoval (l.child s.group s.index) =
      some (l.child s.group s.index) := by
  have hne : (⟨s.group, s.index + 1⟩ : Step) ≠ s := fun h => by
    have hindex := congrArg Step.index h
    dsimp only at hindex
    omega
  have hback : Step.afterRemoval ⟨s.group, s.index + 1⟩ s = s :=
    Step.afterRemoval_of_later ⟨rfl, Nat.lt_succ_self s.index⟩
  refine (along_cons_afterRemoval_child l hne []).trans ?_
  rw [hback, along_singleton]

end Location

namespace Tree

variable {t t' t₁ : Tree} {source target l parent : Location} {s : Step} {n : Node} {d : Description}

/-- Whatever was inserted, also as the root, is there as described. -/
theorem nodeAt?_self_of_insert (h : t.insert l d = .ok t') : t'.nodeAt? l = some d.toNode := by
  rcases l.eq_root_or_exists_child with rfl | ⟨parent, s, rfl⟩
  · obtain ⟨-, rfl⟩ := insert_root_eq_ok_iff.1 h
    rfl
  · obtain ⟨_, _, -, -, -, hat⟩ := nodeAt?_of_insert h
    exact hat

/-- Away from its place, a node arrives in order. -/
theorem nodeAt?_arrival_of_move (hn : t.nodeAt? source = some n) (hne : target ≠ source)
    (h : t.move source target = .ok t') :
    ∃ l, source.arrival? target = some l ∧ t'.nodeAt? l = some n.sorted := by
  cases hc : source.contains target with
  | true =>
    rw [move_of_contains hn hne hc] at h
    cases h
  | false =>
    obtain ⟨t₁, l, -, hl, hmove⟩ := move_of_not_contains hn hc
    rw [hmove] at h
    refine ⟨l, (Location.arrival?_of_ne hne).trans hl, ?_⟩
    rw [nodeAt?_self_of_insert h, n.toNode_describe]

/-- To delete a child and insert another in its place is to put that one there. -/
theorem insert_of_delete (h : t.delete (parent.child s.group s.index) = .ok t₁) (d : Description) :
    ∃ t', t₁.insert (parent.child s.group s.index) d = .ok t' ∧
      t'.root = t.root.map (·.putAt (parent.child s.group s.index).steps d.toNode) := by
  obtain ⟨p, q, hp, hq, hroot⟩ := delete_child_eq_ok_iff.1 h
  have hparent := nodeAt?_self_of_putAt hroot hp
  have hput := Node.insertChild?_of_removeChild? hq d.toNode
  obtain ⟨t', ht'⟩ := (exists_insert_child_iff (d := d)).2
    ⟨q, hparent, (Node.insertChild?_eq_some_iff.1 hput).1⟩
  obtain ⟨q', m, hq', hm, hroot'⟩ := insert_child_eq_ok_iff.1 ht'
  rw [hparent] at hq'
  cases hq'
  rw [hput] at hm
  cases hm
  refine ⟨t', ht', ?_⟩
  rw [hroot', root_of_putAt_putAt hroot]
  obtain ⟨root, hr, hat⟩ := nodeAt?_eq_some_iff.1 hp
  obtain ⟨c, hc⟩ := Option.isSome_iff_exists.1 (Node.exists_removeChild?_iff.1 ⟨q, hq⟩)
  rw [hr, Option.map_some, Option.map_some, Location.child, Node.putAt_append hat, Node.putAt, hc]
  rfl

/-- To move a node to the slot right behind it puts it back, in order. -/
theorem move_next (hn : t.nodeAt? (parent.child s.group s.index) = some n) :
    ∃ t', t.move (parent.child s.group s.index) (parent.child s.group (s.index + 1)) = .ok t' ∧
      t'.root = t.root.map (·.putAt (parent.child s.group s.index).steps n.sorted) := by
  obtain ⟨t₁, l, hdelete, hl, hmove⟩ :=
    move_of_not_contains hn (Location.child_not_contains_next parent s)
  rw [Location.next_afterRemoval] at hl
  cases hl
  obtain ⟨t', hinsert, hroot⟩ := insert_of_delete hdelete n.describe
  rw [n.toNode_describe] at hroot
  exact ⟨t', hmove.trans hinsert, hroot⟩

/-- To put the node of a location in order changes the tree just where it was out of order. -/
theorem eq_of_putAt_sorted_iff (hn : t.nodeAt? l = some n)
    (hroot : t'.root = t.root.map (·.putAt l.steps n.sorted)) : t' = t ↔ n.Ascending := by
  rw [← Node.sorted_eq_self_iff]
  constructor
  · rintro rfl
    have hsorted := nodeAt?_self_of_putAt hroot hn
    rw [hn] at hsorted
    exact (Option.some.inj hsorted).symm
  · intro h
    rw [h, root_of_putAt_self hn] at hroot
    exact Tree.ext hroot

/-- **How a moved node arrives.** A node that is moved to where it is stays as it is, and so does
the tree. After any other move the node that is found at the target, read anew, is the moved one
with its properties and groups in ascending order, at every level; it is the very node just if
they were in that order before. To move a node to the slot right behind it is always possible,
and puts it back in order: all else in the tree stays, and so does the whole tree just if the node
was in order. -/
theorem nodeAt?_of_move (hn : t.nodeAt? source = some n) :
    (∀ t', t.move source source = .ok t' → t' = t) ∧
    (∀ target t', target ≠ source → t.move source target = .ok t' →
      ∃ l, source.arrival? target = some l ∧ t'.nodeAt? l = some n.sorted ∧
        (t'.nodeAt? l = some n ↔ n.Ascending)) ∧
    ∀ (parent : Location) (s : Step), source = parent.child s.group s.index →
      ∃ t', t.move source (parent.child s.group (s.index + 1)) = .ok t' ∧
        t'.root = t.root.map (·.putAt source.steps n.sorted) ∧ (t' = t ↔ n.Ascending) := by
  refine ⟨fun t' h => ?_, fun target t' hne h => ?_, ?_⟩
  · rw [move_of_nodeAt? hn, if_pos rfl] at h
    exact (Except.ok.inj h).symm
  · obtain ⟨l, hl, hat⟩ := nodeAt?_arrival_of_move hn hne h
    refine ⟨l, hl, hat, ?_⟩
    rw [hat, Option.some.injEq, Node.sorted_eq_self_iff]
  · rintro parent s rfl
    obtain ⟨t', hmove, hroot⟩ := move_next hn
    exact ⟨t', hmove, hroot, eq_of_putAt_sorted_iff hn hroot⟩

/-- A page with one note, whose title was set ahead of its author. -/
def titledPage : Tree where
  root := some ⟨⟨"doc", "page"⟩, [],
    [("items", [⟨⟨"doc", "note"⟩, [("title", "Order"), ("author", "none")], []⟩])]⟩
  wellFormed := by
    rintro n hn
    cases hn
    decide

/-- The note comes back with its author first. -/
theorem nodeAt?_of_move_note :
    titledPage.nodeAt? (Location.root.child "items" 0) =
      some ⟨⟨"doc", "note"⟩, [("title", "Order"), ("author", "none")], []⟩ ∧
    ∃ t', titledPage.move (Location.root.child "items" 0) (Location.root.child "items" 1) = .ok t' ∧
      t'.nodeAt? (Location.root.child "items" 0) =
        some ⟨⟨"doc", "note"⟩, [("author", "none"), ("title", "Order")], []⟩ := by
  have hn : titledPage.nodeAt? (Location.root.child "items" 0) =
      some ⟨⟨"doc", "note"⟩, [("title", "Order"), ("author", "none")], []⟩ := rfl
  obtain ⟨-, hmoved, hnext⟩ := nodeAt?_of_move hn
  obtain ⟨t', hmove, -⟩ := hnext .root ⟨"items", 0⟩ rfl
  obtain ⟨l, hl, hat, -⟩ := hmoved _ t' (by decide) hmove
  cases hl
  exact ⟨hn, t', hmove, hat⟩

/-- So a move need not keep the node as it is, nor the tree when it puts the node back. -/
theorem not_nodeAt?_of_move : ¬ ∀ (t t' : Tree) (source target : Location),
    t.move source target = .ok t' →
      (∃ l n, source.arrival? target = some l ∧ t.nodeAt? source = some n ∧
        t'.nodeAt? l = some n) ∧
      ∀ (parent : Location) (s : Step), source = parent.child s.group s.index →
        target = parent.child s.group (s.index + 1) → t' = t := by
  intro h
  have hn : titledPage.nodeAt? (Location.root.child "items" 0) =
      some ⟨⟨"doc", "note"⟩, [("title", "Order"), ("author", "none")], []⟩ := rfl
  obtain ⟨t', hmove, hroot⟩ := move_next (s := ⟨"items", 0⟩) hn
  obtain ⟨⟨l, m, hl, hm, hat⟩, -⟩ := h _ t' _ _ hmove
  rw [hn] at hm
  cases hm
  cases hl
  have hsorted := hat.symm.trans (nodeAt?_self_of_putAt hroot hn)
  revert hsorted
  decide

end Tree
end BlockEdit
