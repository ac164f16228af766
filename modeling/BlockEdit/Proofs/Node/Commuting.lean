/-
Two changes of one node, made one after the other in either order. A `Square`
says that where both are possible, each is possible after the other and the
two orders end at the same node; the second change may read differently when
it comes after the first.

Changes below different children form a square, whatever they are
(`square_of_parting`). A change of the node and one below a child form one if
the first carries the child, untouched, to some step (`square_of_carries`): a
removal carries every other child to its step after the removal, and a change
of the head carries every child to where it was. What is left are two changes
of the node itself, two removals (`square_removal`) or a removal and a change
of the head (`AtHead.square_removal`).
-/
import BlockEdit.Proofs.Tree.Removal

namespace BlockEdit

namespace Entries

variable {κ α : Type} [DecidableEq κ]

/-- Writing under two names, one of which is there already, in either order. -/
theorem put_comm {es : Entries κ α} {k k' : κ} (h : es.has k = true) (hne : k' ≠ k) (a b : α) :
    (es.put k a).put k' b = (es.put k' b).put k a := by
  induction es with
  | nil => cases h
  | cons e es ih =>
    obtain ⟨k'', c⟩ := e
    by_cases hk : k'' = k
    · subst hk
      simp [put, Ne.symm hne]
    · have hrest : Entries.has es k = true := by
        rw [has, get?, if_neg hk] at h
        exact h
      by_cases hk' : k'' = k'
      · subst hk'
        simp [put, hk]
      · simp [put, hk, hk', ih hrest]

end Entries

theorem eraseIdx_eraseIdx_of_lt {α : Type} (as : List α) {i j : Nat} (h : i < j) :
    (as.eraseIdx j).eraseIdx i = (as.eraseIdx i).eraseIdx (j - 1) := by
  refine List.ext_getElem? fun k => ?_
  simp only [List.getElem?_eraseIdx]
  grind

/-! ## Changes -/

/-- A change of a node, or none where it is not possible. -/
structure Change where
  run : Node → Option Node
  keeps : ∀ ⦃n m⦄, n.WellFormed → run n = some m → m.WellFormed

namespace Change

/-- The change, made to the child that a step leads to. -/
def under (f : Change) (s : Step) : Change where
  run n := (n.child? s).bind fun c => (f.run c).map (n.setChild s)
  keeps n m h hm := by
    obtain ⟨c, hc, hm⟩ := Option.bind_eq_some_iff.1 hm
    obtain ⟨d, hd, rfl⟩ := Option.map_eq_some_iff.1 hm
    exact h.setChild s (f.keeps (h.child? hc) hd)

/-- The change, made to the node at the end of a path. -/
def along (f : Change) (path : List Step) : Change := path.foldr (fun s g => g.under s) f

def removal (r : Step) : Change where
  run n := n.removeChild? r
  keeps _ _ h hm := h.removeChild? hm

variable {f g f' g' : Change} {r s u : Step} {n m c d : Node} {path path' : List Step}

theorem under_eq_some_iff : (f.under s).run n = some m ↔
    ∃ c d, n.child? s = some c ∧ f.run c = some d ∧ m = n.setChild s d := by
  simp only [under, Option.bind_eq_some_iff, Option.map_eq_some_iff, eq_comm (a := m)]
  grind

/-- What a change at the end of a path makes of a node. -/
theorem along_eq_some_iff : (f.along path).run n = some m ↔
    ∃ c d, n.at? path = some c ∧ f.run c = some d ∧ m = n.putAt path d := by
  induction path generalizing n m with
  | nil => simp [along, Node.at?, Node.putAt, eq_comm]
  | cons s path ih =>
    constructor
    · intro h
      obtain ⟨e, m', he, hm', rfl⟩ := under_eq_some_iff.1 h
      obtain ⟨c, d, hc, hd, rfl⟩ := ih.1 hm'
      refine ⟨c, d, ?_, hd, ?_⟩
      · rw [Node.at?, he]
        exact hc
      · rw [Node.putAt, he]
    · rintro ⟨c, d, hc, hd, rfl⟩
      obtain ⟨e, he, hc⟩ := Option.bind_eq_some_iff.1 hc
      refine under_eq_some_iff.2 ⟨e, e.putAt path d, he, ih.2 ⟨c, d, hc, hd, rfl⟩, ?_⟩
      rw [Node.putAt, he]

/-! ## Squares -/

/-- Where two changes are possible, `g'` is possible after `f` and `f'` is possible after `g`, and
both orders end at the same node. -/
def Square (f g f' g' : Change) : Prop :=
  ∀ ⦃n x y⦄, f.run n = some x → g.run n = some y → ∃ z, g'.run x = some z ∧ f'.run y = some z

theorem Square.symm (h : Square f g f' g') : Square g f g' f' := by
  intro n x y hx hy
  obtain ⟨z, hz, hz'⟩ := h hy hx
  exact ⟨z, hz', hz⟩

end Change

/-! ## Two children -/

namespace Node

variable {n m c d : Node} {r s u : Step}

theorem hasGroup_setGroup_of_hasGroup {group : String} (h : n.hasGroup group = true)
    (group' : String) (cs : List Node) : (n.setGroup group' cs).hasGroup group = true := by
  rw [hasGroup, Entries.has_iff] at h ⊢
  rw [setGroup, Entries.keys_put]
  split
  · exact h
  · exact List.mem_append_left _ h

theorem setGroup_comm {group group' : String} (h : n.hasGroup group = true) (hne : group' ≠ group)
    (cs ds : List Node) :
    (n.setGroup group cs).setGroup group' ds = (n.setGroup group' ds).setGroup group cs := by
  rw [setGroup, setGroup, setGroup, setGroup]
  dsimp only
  rw [Entries.put_comm h hne]

/-- Children by different steps are put in either order. -/
theorem setChild_comm (hs : n.child? s = some c) (h : u ≠ s) (a b : Node) :
    (n.setChild s a).setChild u b = (n.setChild u b).setChild s a := by
  by_cases hgroup : u.group = s.group
  · have hindex : s.index ≠ u.index := fun hi => h (Step.eq_of_group_of_index hgroup hi.symm)
    simp only [setChild, hgroup, childrenOf_setGroup_self, setGroup_setGroup]
    rw [List.set_comm _ _ hindex]
  · simp only [setChild, childrenOf_setGroup_of_ne _ _ hgroup,
      childrenOf_setGroup_of_ne _ _ (Ne.symm hgroup)]
    exact setGroup_comm (hasGroup_of_child? hs) hgroup ..

/-- A child that is to be taken out may as well be another one. -/
theorem removeChild?_setChild (n : Node) (r : Step) (c : Node) :
    (n.setChild r c).removeChild? r = n.removeChild? r := by
  simp only [removeChild?, setChild, childrenOf_setGroup_self, List.length_set,
    List.eraseIdx_set_eq, setGroup_setGroup]

end Node

namespace Change

variable {f g f' g' : Change} {r s s' u : Step} {n m c d : Node} {path path' : List Step}

/-- Changes below different children. -/
theorem square_of_parting (h : u ≠ s) (f g : Change) :
    Square (f.under s) (g.under u) (f.under s) (g.under u) := by
  intro n x y hx hy
  obtain ⟨c, a, hc, ha, rfl⟩ := under_eq_some_iff.1 hx
  obtain ⟨d, b, hd, hb, rfl⟩ := under_eq_some_iff.1 hy
  refine ⟨(n.setChild s a).setChild u b, ?_, ?_⟩
  · refine under_eq_some_iff.2 ⟨d, b, ?_, hb, rfl⟩
    rw [Node.child?_setChild_of_ne h, hd]
  · refine under_eq_some_iff.2 ⟨c, a, ?_, ha, Node.setChild_comm hc h a b⟩
    rw [Node.child?_setChild_of_ne (Ne.symm h), hc]

/-! ## Changes above others -/

/-- The change leaves the child by the step `s` as it is, and it is found by the step `s'`
afterwards; and that is so whichever node the child is. -/
def Carries (f : Change) (s s' : Step) : Prop :=
  ∀ ⦃n m c⦄, f.run n = some m → n.child? s = some c →
    m.child? s' = some c ∧ ∀ d, f.run (n.setChild s d) = some (m.setChild s' d)

theorem square_of_carries (h : f.Carries s s') (g : Change) :
    Square f (g.under s) f (g.under s') := by
  intro n x y hx hy
  obtain ⟨c, d, hc, hd, rfl⟩ := under_eq_some_iff.1 hy
  obtain ⟨hcarried, hput⟩ := h hx hc
  exact ⟨x.setChild s' d, under_eq_some_iff.2 ⟨c, d, hcarried, hd, rfl⟩, hput d⟩

theorem carries_removal (h : s ≠ r) : (removal r).Carries s (s.afterRemoval r) := by
  intro n m c hm hc
  refine ⟨(Node.child?_of_removeChild? hm h).trans hc, fun d => ?_⟩
  obtain ⟨hr, rfl⟩ := Node.removeChild?_eq_some_iff.1 hm
  have hhas := Node.hasGroup_of_child? hc
  by_cases hgroup : s.group = r.group
  · refine Node.removeChild?_eq_some_iff.2 ⟨?_, ?_⟩
    · rwa [Node.setChild, hgroup, Node.childrenOf_setGroup_self, List.length_set]
    · simp only [Node.setChild, Step.group_afterRemoval, hgroup, Node.childrenOf_setGroup_self,
        Node.setGroup_setGroup]
      by_cases hlt : r.index < s.index
      · rw [Step.afterRemoval_of_later ⟨hgroup, hlt⟩, List.eraseIdx_set_lt hlt]
      · have hne : s.index ≠ r.index := fun hi => h (Step.eq_of_group_of_index hgroup hi)
        have hgt : s.index < r.index := by omega
        rw [Step.afterRemoval_of_not_later fun hlater => hlt hlater.2, List.eraseIdx_set_gt hgt]
  · rw [Step.afterRemoval_of_not_later fun hlater => hgroup hlater.1]
    refine Node.removeChild?_eq_some_iff.2 ⟨?_, ?_⟩
    · rwa [Node.setChild, Node.childrenOf_setGroup_of_ne _ _ (Ne.symm hgroup)]
    · rw [Node.setChild, Node.setChild, Node.childrenOf_setGroup_of_ne _ _ (Ne.symm hgroup),
        Node.childrenOf_setGroup_of_ne _ _ hgroup]
      exact (Node.setGroup_comm hhas (Ne.symm hgroup) ..).symm

/-! ## Two changes of one node -/

/-- Of two siblings the later one moves down when the other is taken out. -/
theorem square_removal_of_lt (hgroup : s.group = r.group) (hlt : r.index < s.index) :
    Square (removal r) (removal s) (removal (r.afterRemoval s)) (removal (s.afterRemoval r)) := by
  intro n x y hx hy
  obtain ⟨hr, rfl⟩ := Node.removeChild?_eq_some_iff.1 hx
  obtain ⟨hs, rfl⟩ := Node.removeChild?_eq_some_iff.1 hy
  rw [Step.afterRemoval_of_later ⟨hgroup, hlt⟩,
    Step.afterRemoval_of_not_later fun hlater => Nat.lt_asymm hlt hlater.2]
  rw [hgroup] at hs ⊢
  refine ⟨_, Node.removeChild?_eq_some_iff.2 ⟨?_, rfl⟩, Node.removeChild?_eq_some_iff.2 ⟨?_, ?_⟩⟩
  · rw [Node.childrenOf_setGroup_self, List.length_eraseIdx_of_lt hr]
    dsimp only
    omega
  · rw [Node.childrenOf_setGroup_self, List.length_eraseIdx_of_lt hs]
    omega
  · simp only [Node.childrenOf_setGroup_self, Node.setGroup_setGroup]
    rw [eraseIdx_eraseIdx_of_lt _ hlt]

/-- Two children of one node can be taken out in either order. -/
theorem square_removal (h : s ≠ r) : Square (removal r) (removal s)
    (removal (r.afterRemoval s)) (removal (s.afterRemoval r)) := by
  by_cases hgroup : s.group = r.group
  · rcases Nat.lt_trichotomy r.index s.index with hlt | heq | hlt
    · exact square_removal_of_lt hgroup hlt
    · exact absurd (Step.eq_of_group_of_index hgroup heq.symm) h
    · exact (square_removal_of_lt hgroup.symm hlt).symm
  · intro n x y hx hy
    obtain ⟨hr, rfl⟩ := Node.removeChild?_eq_some_iff.1 hx
    obtain ⟨hs, rfl⟩ := Node.removeChild?_eq_some_iff.1 hy
    obtain ⟨c, hc⟩ := Option.isSome_iff_exists.1 (Node.exists_removeChild?_iff.1 ⟨_, hx⟩)
    rw [Step.afterRemoval_of_not_later fun hlater => hgroup hlater.1,
      Step.afterRemoval_of_not_later fun hlater => hgroup hlater.1.symm]
    refine ⟨_, Node.removeChild?_eq_some_iff.2 ⟨?_, rfl⟩, Node.removeChild?_eq_some_iff.2 ⟨?_, ?_⟩⟩
    · rwa [Node.childrenOf_setGroup_of_ne _ _ hgroup]
    · rwa [Node.childrenOf_setGroup_of_ne _ _ (Ne.symm hgroup)]
    · rw [Node.childrenOf_setGroup_of_ne _ _ hgroup,
        Node.childrenOf_setGroup_of_ne _ _ (Ne.symm hgroup)]
      exact Node.setGroup_comm (Node.hasGroup_of_child? hc) hgroup ..

/-- The change has nothing to do with the children that there are. -/
def AtHead (f : Change) : Prop :=
  ∀ ⦃n m group⦄, f.run n = some m → n.hasGroup group = true →
    m.childrenOf group = n.childrenOf group ∧
      ∀ cs, f.run (n.setGroup group cs) = some (m.setGroup group cs)

theorem AtHead.carries (h : f.AtHead) (s : Step) : f.Carries s s := by
  intro n m c hm hc
  obtain ⟨hchildren, hset⟩ := h hm (Node.hasGroup_of_child? hc)
  refine ⟨?_, fun d => ?_⟩
  · rw [Node.child?, hchildren]
    exact hc
  · rw [Node.setChild, Node.setChild, hchildren, hset]

theorem AtHead.square_removal (h : f.AtHead) (r : Step) :
    Square f (removal r) f (removal r) := by
  intro n x y hx hy
  obtain ⟨c, hc⟩ := Option.isSome_iff_exists.1 (Node.exists_removeChild?_iff.1 ⟨y, hy⟩)
  obtain ⟨hr, rfl⟩ := Node.removeChild?_eq_some_iff.1 hy
  obtain ⟨hchildren, hset⟩ := h hx (Node.hasGroup_of_child? hc)
  refine ⟨_, Node.removeChild?_eq_some_iff.2 ⟨?_, rfl⟩, ?_⟩
  · rwa [hchildren]
  · rw [hset, hchildren]

end Change
end BlockEdit
