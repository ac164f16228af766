/-
A placement and the insertion at the location it answers with. The one counts
siblings and the other counts them again; they agree, and a node placed in
front of its anchor, behind it, or at an end of a group comes to be just there
(`Lands`).

**A placement fails just where the anchor or the parent is not there or the
anchor is the root, and otherwise the insertion succeeds and does what the
placement says**: `location_outcomes`.
-/
import BlockEdit.Drop.Placement
import BlockEdit.Proofs.Tree.Insertion

namespace BlockEdit

/-! ## The siblings of a node -/

section
variable {α : Type} {as front back : List α} {a : α} {i : Nat}

theorem exists_append_of_getElem? (h : as[i]? = some a) :
    ∃ front back, as = front ++ a :: back ∧ front.length = i := by
  obtain ⟨hi, rfl⟩ := List.getElem?_eq_some_iff.1 h
  refine ⟨as.take i, as.drop (i + 1), ?_, List.length_take_of_le (Nat.le_of_lt hi)⟩
  rw [List.getElem_cons_drop, List.take_append_drop]

theorem insertIdx_length_append (front back : List α) (a : α) :
    (front ++ back).insertIdx front.length a = front ++ a :: back := by
  induction front with
  | nil => rfl
  | cons b front ih => rw [List.cons_append, List.length_cons, List.insertIdx_succ_cons, ih,
      List.cons_append]

end

namespace Tree

variable {t : Tree} {l : Location} {n : Node}

theorem nodeAt_of_some (h : t.nodeAt? l = some n) : t.nodeAt l = .ok n := by
  rw [nodeAt, h]

theorem nodeAt_of_none (h : t.nodeAt? l = none) : t.nodeAt l = .error (.noSuchLocation l) := by
  rw [nodeAt, h]

/-- A node but the root stands among the children of its parent. -/
theorem exists_siblings (h : t.nodeAt? l = some n) (hl : l ≠ .root) :
    ∃ parent group m front back, l = parent.child group front.length ∧
      t.nodeAt? parent = some m ∧ m.childrenOf group = front ++ n :: back := by
  cases hlast : l.parentAndStep? with
  | none => exact absurd (Location.parentAndStep?_eq_none_iff.1 hlast) hl
  | some place =>
    obtain ⟨parent, s⟩ := place
    obtain rfl := Location.parentAndStep?_eq_some_iff.1 hlast
    rw [nodeAt?_child] at h
    obtain ⟨m, hm, hn⟩ := Option.bind_eq_some_iff.1 h
    obtain ⟨front, back, hchildren, hlength⟩ := exists_append_of_getElem? hn
    exact ⟨parent, s.group, m, front, back, by rw [hlength], hm, hchildren⟩

end Tree

namespace Placement

/-- The location that the placement starts from. -/
def reference : Placement → Location
  | inFrontOf anchor | behind anchor => anchor
  | startOf parent _ | endOf parent _ => parent

/-- Whether that is the location of a sibling to be. -/
def isBeside : Placement → Bool
  | inFrontOf _ | behind _ => true
  | startOf .. | endOf .. => false

/-- The children of a group of the parent before and after `c` is placed among them. -/
inductive Lands (c : Node) (parent : Location) (group : String) :
    Placement → List Node → List Node → Prop where
  | inFrontOf (front back : List Node) (a : Node) :
      Lands c parent group (.inFrontOf (parent.child group front.length))
        (front ++ a :: back) (front ++ c :: a :: back)
  | behind (front back : List Node) (a : Node) :
      Lands c parent group (.behind (parent.child group front.length))
        (front ++ a :: back) (front ++ a :: c :: back)
  | startOf (cs : List Node) : Lands c parent group (.startOf parent group) cs (c :: cs)
  | endOf (cs : List Node) : Lands c parent group (.endOf parent group) cs (cs ++ [c])

/-- The anchor or the parent is not there, or the anchor is the root, which has no place beside
it. -/
def Unplaceable (t : Tree) (p : Placement) : Prop :=
  t.nodeAt? p.reference = none ∨ p.isBeside = true ∧ p.reference = .root

variable {t : Tree} {p : Placement}

theorem location_of_nodeAt?_eq_none (h : t.nodeAt? p.reference = none) :
    p.location t = .error (.noSuchLocation p.reference) := by
  cases p with
  | inFrontOf anchor | behind anchor | startOf anchor group | endOf anchor group =>
    rw [reference] at h ⊢
    rw [location, Tree.nodeAt_of_none h]
    rfl

theorem location_of_unplaceable (h : p.Unplaceable t) :
    p.location t = .error (.noSuchLocation p.reference) := by
  cases hnode : t.nodeAt? p.reference with
  | none => exact location_of_nodeAt?_eq_none hnode
  | some a =>
    rcases h with h | ⟨hbeside, hroot⟩
    · rw [hnode] at h
      cases h
    cases p with
    | inFrontOf anchor | behind anchor =>
      rw [reference] at hnode hroot ⊢
      rw [location, Tree.nodeAt_of_some hnode, hroot]
      rfl
    | startOf parent group | endOf parent group => cases hbeside

/-- Otherwise the location is one for a child, and a child that comes in there lands where the
placement says. -/
theorem exists_location (h : ¬ p.Unplaceable t) :
    ∃ parent group i n, p.location t = .ok (parent.child group i) ∧ t.nodeAt? parent = some n ∧
      i ≤ (n.childrenOf group).length ∧
      ∀ c, Lands c parent group p (n.childrenOf group) ((n.childrenOf group).insertIdx i c) := by
  rw [Unplaceable, not_or] at h
  obtain ⟨hnode, hroot⟩ := h
  obtain ⟨a, ha⟩ := Option.ne_none_iff_exists'.1 hnode
  cases p with
  | inFrontOf anchor =>
    rw [reference] at ha
    obtain ⟨parent, group, n, front, back, rfl, hn, hchildren⟩ :=
      Tree.exists_siblings ha fun heq => hroot ⟨rfl, heq⟩
    refine ⟨parent, group, front.length, n, ?_, hn, by simp [hchildren], fun c => ?_⟩
    · rw [location, Tree.nodeAt_of_some ha]
      simp [Location.isRoot, Location.child, bind, Except.bind, pure, Except.pure]
    · rw [hchildren, insertIdx_length_append]
      exact .inFrontOf front back a
  | behind anchor =>
    rw [reference] at ha
    obtain ⟨parent, group, n, front, back, rfl, hn, hchildren⟩ :=
      Tree.exists_siblings ha fun heq => hroot ⟨rfl, heq⟩
    refine ⟨parent, group, front.length + 1, n, ?_, hn, by simp [hchildren], fun c => ?_⟩
    · rw [location, Tree.nodeAt_of_some ha, Location.parentAndStep?_child]
      rfl
    · -- the anchor is the last of the siblings in front of the new one
      have hinsert := insertIdx_length_append (front ++ [a]) back c
      rw [List.length_append, List.length_singleton, List.append_assoc,
        List.append_assoc] at hinsert
      rw [hchildren]
      exact hinsert ▸ .behind front back a
  | startOf parent group =>
    rw [reference] at ha
    refine ⟨parent, group, 0, a, ?_, ha, Nat.zero_le _, fun c => .startOf _⟩
    rw [location, Tree.nodeAt_of_some ha]
    rfl
  | endOf parent group =>
    rw [reference] at ha
    refine ⟨parent, group, (a.childrenOf group).length, a, ?_, ha, Nat.le_refl _, fun c => ?_⟩
    · rw [location, Tree.nodeAt_of_some ha]
      rfl
    · have hinsert := insertIdx_length_append (a.childrenOf group) [] c
      rw [List.append_nil] at hinsert
      exact hinsert ▸ .endOf _

theorem location_eq_error_iff {e : EditError} :
    p.location t = .error e ↔ e = .noSuchLocation p.reference ∧ p.Unplaceable t := by
  by_cases h : p.Unplaceable t
  · rw [location_of_unplaceable h]
    simp [h, eq_comm]
  · obtain ⟨parent, group, i, n, hlocation, -⟩ := exists_location h
    rw [hlocation]
    simp [h]

/-- **A placement fails just where** its anchor or parent is not there, or its anchor is the root,
and says so. Any node can be inserted at the location that it answers with. The node then is
where the placement says, among the children that were there, and all other groups of
the parent are as they were. -/
theorem location_outcomes (p : Placement) (t : Tree) (d : Description) :
    (∀ e, p.location t = .error e ↔ e = .noSuchLocation p.reference ∧ p.Unplaceable t) ∧
    ∀ l, p.location t = .ok l → ∃ t' parent group n n', t.insert l d = .ok t' ∧
      t.nodeAt? parent = some n ∧ t'.nodeAt? parent = some n' ∧ t'.nodeAt? l = some d.toNode ∧
      Lands d.toNode parent group p (n.childrenOf group) (n'.childrenOf group) ∧
      ∀ other, other ≠ group → Entries.get? n'.groups other = Entries.get? n.groups other := by
  refine ⟨fun e => location_eq_error_iff, fun l hl => ?_⟩
  have hplaceable : ¬ p.Unplaceable t := fun h => by
    rw [location_of_unplaceable h] at hl
    cases hl
  obtain ⟨parent, group, i, n, hlocation, hn, hi, hlands⟩ := exists_location hplaceable
  rw [hlocation] at hl
  cases hl
  obtain ⟨t', hinsert⟩ := Tree.exists_insert_child_iff.2 ⟨n, hn, hi⟩
  obtain ⟨n₁, n', hn₁, hn', hparent, hchild⟩ := Tree.nodeAt?_of_insert hinsert
  rw [hn] at hn₁
  cases hn₁
  refine ⟨t', parent, group, n, n', hinsert, hn, hparent, hchild, ?_, fun other hother => ?_⟩
  · rw [Node.childrenOf_insertChild?_self hn']
    exact hlands _
  · obtain ⟨-, rfl⟩ := Node.insertChild?_eq_some_iff.1 hn'
    exact Entries.get?_put_of_ne _ _ hother

end Placement
end BlockEdit
