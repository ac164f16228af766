/-
Edits at different places of one tree, queued independently: whichever is made
first, the other can be made after it, and the result is the same tree. All
that the later edit needs is its location, read anew after the removal.

An edit of the head of a node (`HeadEdit`) changes its properties or adds an
empty group, so it moves no location. A removal moves the siblings behind the
removed node. Either is a change of one node (`TurnsInto`), and the squares of
`Proofs.Node.Commuting` are carried over to the whole tree by the position of
the one node to the other: apart, above, below, or the same.
-/
import BlockEdit.Proofs.Node.Commuting
import BlockEdit.Proofs.Tree.Edits

namespace BlockEdit

namespace Location

variable {parent : Location} {r s u : Step} {path : List Step}

/-- Two paths part, or are the same, or one goes on from the other. -/
theorem path_cases (ss us : List Step) :
    (∃ (common : List Step) (s u : Step) (path path' : List Step), u ≠ s ∧
      ss = common ++ s :: path ∧ us = common ++ u :: path') ∨
    ss = us ∨ (∃ s path, us = ss ++ s :: path) ∨ ∃ s path, ss = us ++ s :: path := by
  induction ss generalizing us with
  | nil =>
    cases us with
    | nil => exact .inr (.inl rfl)
    | cons u us => exact .inr (.inr (.inl ⟨u, us, rfl⟩))
  | cons s ss ih =>
    cases us with
    | nil => exact .inr (.inr (.inr ⟨s, ss, rfl⟩))
    | cons u us =>
      by_cases hu : u = s
      · subst hu
        rcases ih us with ⟨common, s, v, path, path', hne, rfl, rfl⟩ | rfl | ⟨s, path, rfl⟩ |
          ⟨s, path, rfl⟩
        · exact .inl ⟨u :: common, s, v, path, path', hne, rfl, rfl⟩
        · exact .inr (.inl rfl)
        · exact .inr (.inr (.inl ⟨s, path, rfl⟩))
        · exact .inr (.inr (.inr ⟨s, path, rfl⟩))
      · exact .inl ⟨[], s, u, ss, us, hu, rfl, rfl⟩

/-- Where one location stands to another. -/
theorem position_cases (l m : Location) :
    (∃ (k : Location) (s u : Step) (path path' : List Step), u ≠ s ∧ l = k.along (s :: path) ∧
      m = k.along (u :: path')) ∨
    l = m ∨ (∃ s path, m = l.along (s :: path)) ∨ ∃ s path, l = m.along (s :: path) := by
  obtain ⟨ss⟩ := l
  obtain ⟨us⟩ := m
  rcases path_cases ss us with ⟨common, s, u, path, path', hne, rfl, rfl⟩ | rfl | ⟨s, path, rfl⟩ |
    ⟨s, path, rfl⟩
  · exact .inl ⟨⟨common⟩, s, u, path, path', hne, rfl, rfl⟩
  · exact .inr (.inl rfl)
  · exact .inr (.inr (.inl ⟨s, path, rfl⟩))
  · exact .inr (.inr (.inr ⟨s, path, rfl⟩))

theorem not_contains_of_parting (h : u ≠ s) (k : Location) (path path' : List Step) :
    (k.along (s :: path)).contains (k.along (u :: path')) = false := by
  rw [← Bool.not_eq_true, contains_iff]
  intro hprefix
  exact h (List.cons_prefix_cons.1 ((List.prefix_append_right_inj _).1 hprefix)).1.symm

theorem along_cons_not_contains (l : Location) (s : Step) (path : List Step) :
    (l.along (s :: path)).contains l = false := by
  rw [← Bool.not_eq_true, contains_iff]
  intro hprefix
  have hlength := hprefix.length_le
  simp only [along, List.length_append, List.length_cons] at hlength
  omega

theorem contains_along (l : Location) (path : List Step) : l.contains (l.along path) = true :=
  contains_iff_exists_along.2 ⟨path, rfl⟩

theorem child_eq_along (l : Location) (s : Step) (path : List Step) :
    (l.along path).child s.group s.index = l.along (path ++ [s]) := (along_concat l path s).symm

/-- What is not within a child leaves the parent by another step. -/
theorem ne_of_child_not_contains
    (h : (parent.child r.group r.index).contains (parent.along (s :: path)) = false) : s ≠ r := by
  rintro rfl
  rw [← along_child, contains_along] at h
  cases h

theorem root_contains (l : Location) : root.contains l = true := contains_iff.2 List.nil_prefix

end Location

/-! ## Changes in a tree -/

namespace Tree

variable {t x y : Tree} {l k : Location} {f g f' g' : Change} {r s s' u : Step}
  {path path' : List Step}

/-- The change, made to the node at the location, turns the first tree into the second. -/
def TurnsInto (t : Tree) (f : Change) (l : Location) (t' : Tree) : Prop :=
  ∃ n m, t.nodeAt? l = some n ∧ f.run n = some m ∧ t'.root = t.root.map (·.putAt l.steps m)

/-- A change below a location is a change of the node at the location. -/
theorem turnsInto_along_iff :
    t.TurnsInto f (l.along path) x ↔ t.TurnsInto (f.along path) l x := by
  have hroot : ∀ {n m : Node}, t.nodeAt? l = some n → (x.root = t.root.map
      (·.putAt (l.along path).steps m) ↔ x.root = t.root.map (·.putAt l.steps (n.putAt path m))) := by
    intro n m hn
    obtain ⟨root, hr, hat⟩ := nodeAt?_eq_some_iff.1 hn
    rw [hr, Option.map_some, Option.map_some]
    exact iff_of_eq (congrArg (x.root = some ·) (Node.putAt_append hat path m))
  constructor
  · rintro ⟨c, d, hc, hd, hx⟩
    rw [nodeAt?_along] at hc
    obtain ⟨n, hn, hc⟩ := Option.bind_eq_some_iff.1 hc
    exact ⟨n, _, hn, Change.along_eq_some_iff.2 ⟨c, d, hc, hd, rfl⟩, (hroot hn).1 hx⟩
  · rintro ⟨n, m, hn, hm, hx⟩
    obtain ⟨c, d, hc, hd, rfl⟩ := Change.along_eq_some_iff.1 hm
    refine ⟨c, d, ?_, hd, (hroot hn).2 hx⟩
    rw [nodeAt?_along, hn]
    exact hc

/-- Two changes of one node that form a square do so in the tree. -/
theorem TurnsInto.square (h : Change.Square f g f' g') (hx : t.TurnsInto f l x)
    (hy : t.TurnsInto g l y) : ∃ z, x.TurnsInto g' l z ∧ y.TurnsInto f' l z := by
  obtain ⟨n, a, hn, ha, hxroot⟩ := hx
  obtain ⟨n', b, hn', hb, hyroot⟩ := hy
  obtain rfl : n = n' := Option.some.inj (hn.symm.trans hn')
  obtain ⟨c, hc, hc'⟩ := h ha hb
  have hxat := nodeAt?_self_of_putAt hxroot hn
  have hyat := nodeAt?_self_of_putAt hyroot hn
  refine ⟨x.putAt l c (g'.keeps (wellFormed_of_nodeAt? hxat) hc), ⟨a, c, hxat, hc, rfl⟩,
    b, c, hyat, hc', ?_⟩
  exact (root_of_putAt_putAt hxroot).trans (root_of_putAt_putAt hyroot).symm

/-- Changes at places that part do not meet. -/
theorem TurnsInto.of_parting (hs : u ≠ s) (hx : t.TurnsInto f (k.along (s :: path)) x)
    (hy : t.TurnsInto g (k.along (u :: path')) y) :
    ∃ z, x.TurnsInto g (k.along (u :: path')) z ∧ y.TurnsInto f (k.along (s :: path)) z := by
  simp only [turnsInto_along_iff] at hx hy ⊢
  exact hx.square (Change.square_of_parting hs (f.along path) (g.along path')) hy

/-- A change above another, where the upper one carries the child that the lower one is under. -/
theorem TurnsInto.of_carries (h : f.Carries s s') (hx : t.TurnsInto f l x)
    (hy : t.TurnsInto g (l.along (s :: path)) y) :
    ∃ z, x.TurnsInto g (l.along (s' :: path)) z ∧ y.TurnsInto f l z := by
  simp only [turnsInto_along_iff] at hy ⊢
  exact hx.square (Change.square_of_carries h (g.along path)) hy

/-- What is changed below a node is of no matter when the node is taken out. -/
theorem TurnsInto.delete_of_within (hx : t.TurnsInto f (l.along path) x)
    (hy : t.delete l = .ok y) : x.delete l = .ok y := by
  rcases l.eq_root_or_exists_child with rfl | ⟨parent, r, rfl⟩
  · obtain ⟨c, d, hc, -, hroot⟩ := hx
    obtain ⟨root, hr, -⟩ := nodeAt?_eq_some_iff.1 hc
    rw [hr] at hroot
    rw [delete_root, nodeAt, nodeAt?, hr] at hy
    rw [delete_root, nodeAt, nodeAt?, hroot]
    exact hy
  · rw [Location.along_child, turnsInto_along_iff] at hx
    obtain ⟨n, a, hn, ha, hroot⟩ := hx
    obtain ⟨n', m, hn', hm, hyroot⟩ := delete_child_eq_ok_iff.1 hy
    obtain rfl : n = n' := Option.some.inj (hn.symm.trans hn')
    obtain ⟨c, d, -, -, rfl⟩ := Change.under_eq_some_iff.1 ha
    refine delete_child_eq_ok_iff.2 ⟨_, m, nodeAt?_self_of_putAt hroot hn, ?_, ?_⟩
    · rw [Node.removeChild?_setChild, hm]
    · rw [hyroot, root_of_putAt_putAt hroot]

theorem delete_child_iff_turnsInto : t.delete (k.child r.group r.index) = .ok x ↔
    t.TurnsInto (Change.removal r) k x := delete_child_eq_ok_iff

end Tree

/-! ## Edits of the head of a node -/

/-- An edit of the properties of a node, or of the names of its groups. -/
inductive HeadEdit where
  | putProperty (key value : String)
  | rekeyProperty (old new : String)
  | removeProperty (key : String)
  | addGroup (group : String)
deriving DecidableEq

namespace HeadEdit

def editAt (l : Location) : HeadEdit → Edit
  | putProperty key value => .putProperty l key value
  | rekeyProperty old new => .rekeyProperty l old new
  | removeProperty key => .removeProperty l key
  | addGroup group => .addGroup l group

/-- What the edit does to the node. -/
def change : HeadEdit → Change
  | putProperty key value =>
    ⟨fun n => some (n.putProperty key value),
      fun _ _ h hm => Option.some.inj hm ▸ h.putProperty key value⟩
  | rekeyProperty old new =>
    ⟨fun n => n.rekeyProperty? old new, fun _ _ h hm => h.rekeyProperty? hm⟩
  | removeProperty key =>
    ⟨fun n => some (n.removeProperty key),
      fun _ _ h hm => Option.some.inj hm ▸ h.removeProperty key⟩
  | addGroup group =>
    ⟨fun n => some (n.ensureGroup group), fun _ _ h hm => Option.some.inj hm ▸ h.ensureGroup group⟩

variable {t x y : Tree} {l : Location} {e : HeadEdit}

theorem run_editAt_iff : (e.editAt l).run t = .ok x ↔ t.TurnsInto e.change l x := by
  cases e with
  | putProperty key value =>
    refine Tree.putProperty_eq_ok_iff.trans ?_
    simp only [Tree.TurnsInto, change, Option.some.injEq, exists_and_left, exists_eq_left']
  | rekeyProperty old new => exact Tree.rekeyProperty_eq_ok_iff
  | removeProperty key =>
    refine Tree.removeProperty_eq_ok_iff.trans ?_
    simp only [Tree.TurnsInto, change, Option.some.injEq, exists_and_left, exists_eq_left']
  | addGroup group =>
    refine Tree.addGroup_eq_ok_iff.trans ?_
    simp only [Tree.TurnsInto, change, Option.some.injEq, exists_and_left, exists_eq_left']

theorem atHead_change (e : HeadEdit) : e.change.AtHead := by
  intro n m group hm hgroup
  cases e with
  | putProperty key value =>
    cases hm
    exact ⟨rfl, fun cs => rfl⟩
  | rekeyProperty old new =>
    obtain ⟨hhas, rfl⟩ := Node.rekeyProperty?_eq_some_iff.1 hm
    exact ⟨rfl, fun cs => Node.rekeyProperty?_eq_some_iff.2 ⟨hhas, rfl⟩⟩
  | removeProperty key =>
    cases hm
    exact ⟨rfl, fun cs => rfl⟩
  | addGroup added =>
    cases hm
    by_cases hadded : added = group
    · subst hadded
      rw [Node.ensureGroup_of_hasGroup hgroup]
      refine ⟨rfl, fun cs => congrArg some ?_⟩
      exact Node.ensureGroup_of_hasGroup (Node.hasGroup_setGroup_of_hasGroup hgroup ..)
    · refine ⟨Node.childrenOf_setGroup_of_ne _ _ (Ne.symm hadded), fun cs => congrArg some ?_⟩
      rw [Node.ensureGroup, Node.ensureGroup, Node.childrenOf_setGroup_of_ne _ _ hadded]
      exact Node.setGroup_comm hgroup hadded ..

/-- An edit of a head and a removal that leaves the node, in either order. -/
theorem run_of_delete {removed : Location} (hx : (e.editAt l).run t = .ok x)
    (hy : t.delete removed = .ok y) (h : removed.contains l = false) :
    ∃ l' z, l.afterRemoval removed = some l' ∧ x.delete removed = .ok z ∧
      (e.editAt l').run y = .ok z := by
  rcases removed.eq_root_or_exists_child with rfl | ⟨parent, r, rfl⟩
  · rw [Location.root_contains] at h
    cases h
  simp only [run_editAt_iff, Tree.delete_child_iff_turnsInto] at hx hy ⊢
  rcases Location.position_cases parent l with ⟨k, s, u, path, path', hu, rfl, rfl⟩ | rfl |
    ⟨s, path, rfl⟩ | ⟨s, path, rfl⟩
  · obtain ⟨z, hz, hz'⟩ := hy.of_parting hu hx
    exact ⟨_, z, Location.afterRemoval_child_of_not_contains
      (Location.not_contains_of_parting hu ..) r, hz', hz⟩
  · obtain ⟨z, hz, hz'⟩ := hx.square (e.atHead_change.square_removal r) hy
    exact ⟨_, z, Location.self_afterRemoval_child parent r, hz, hz'⟩
  · have hs := Location.ne_of_child_not_contains h
    obtain ⟨z, hz, hz'⟩ := hy.of_carries (Change.carries_removal hs) hx
    exact ⟨_, z, Location.along_cons_afterRemoval_child parent hs path, hz', hz⟩
  · obtain ⟨z, hz, hz'⟩ := hx.of_carries (e.atHead_change.carries s) hy
    exact ⟨_, z, Location.afterRemoval_child_of_not_contains
      (Location.along_cons_not_contains ..) r, hz, hz'⟩

end HeadEdit

/-! ## Two removals -/

namespace Tree

variable {t x y : Tree} {a b k parent : Location} {r s u v : Step} {path path' : List Step}

/-- The nodes at the two locations can be taken out in either order, where after the first removal
the other location is read anew. -/
def DeletesCommute (t : Tree) (a b : Location) : Prop :=
  ∃ x y a' b' z, t.delete a = .ok x ∧ t.delete b = .ok y ∧
    b.afterRemoval a = some b' ∧ a.afterRemoval b = some a' ∧
    x.delete b' = .ok z ∧ y.delete a' = .ok z

theorem DeletesCommute.symm (h : t.DeletesCommute a b) : t.DeletesCommute b a := by
  obtain ⟨x, y, a', b', z, hx, hy, hb, ha, hz, hz'⟩ := h
  exact ⟨y, x, b', a', z, hy, hx, ha, hb, hz', hz⟩

/-- Children of parents that part. -/
theorem deletesCommute_of_parting (hv : v ≠ u)
    (hx : t.delete ((k.along (u :: path)).child r.group r.index) = .ok x)
    (hy : t.delete ((k.along (v :: path')).child s.group s.index) = .ok y) :
    t.DeletesCommute ((k.along (u :: path)).child r.group r.index)
      ((k.along (v :: path')).child s.group s.index) := by
  have hb : (k.along (u :: path)).contains ((k.along (v :: path')).child s.group s.index) = false := by
    rw [Location.child_eq_along]
    exact Location.not_contains_of_parting hv ..
  have ha : (k.along (v :: path')).contains ((k.along (u :: path)).child r.group r.index) = false := by
    rw [Location.child_eq_along]
    exact Location.not_contains_of_parting (Ne.symm hv) ..
  obtain ⟨z, hz, hz'⟩ := (delete_child_iff_turnsInto.1 hx).of_parting hv
    (delete_child_iff_turnsInto.1 hy)
  exact ⟨x, y, _, _, z, hx, hy, Location.afterRemoval_child_of_not_contains hb r,
    Location.afterRemoval_child_of_not_contains ha s, delete_child_iff_turnsInto.2 hz,
    delete_child_iff_turnsInto.2 hz'⟩

/-- Children of one parent. -/
theorem deletesCommute_of_siblings (hs : s ≠ r)
    (hx : t.delete (parent.child r.group r.index) = .ok x)
    (hy : t.delete (parent.child s.group s.index) = .ok y) :
    t.DeletesCommute (parent.child r.group r.index) (parent.child s.group s.index) := by
  obtain ⟨z, hz, hz'⟩ := (delete_child_iff_turnsInto.1 hx).square (Change.square_removal hs)
    (delete_child_iff_turnsInto.1 hy)
  exact ⟨x, y, _, _, z, hx, hy, Location.along_cons_afterRemoval_child parent hs [],
    Location.along_cons_afterRemoval_child parent (Ne.symm hs) [],
    delete_child_iff_turnsInto.2 hz, delete_child_iff_turnsInto.2 hz'⟩

/-- A child, and a node further down below another child. -/
theorem deletesCommute_of_below (hu : u ≠ r)
    (hx : t.delete (parent.child r.group r.index) = .ok x)
    (hy : t.delete ((parent.along (u :: path)).child s.group s.index) = .ok y) :
    t.DeletesCommute (parent.child r.group r.index)
      ((parent.along (u :: path)).child s.group s.index) := by
  have hb : ((parent.along (u :: path)).child s.group s.index).afterRemoval
      (parent.child r.group r.index) =
        some ((parent.along (u.afterRemoval r :: path)).child s.group s.index) := by
    rw [Location.child_eq_along, Location.child_eq_along]
    exact Location.along_cons_afterRemoval_child parent hu (path ++ [s])
  have ha : (parent.along (u :: path)).contains (parent.child r.group r.index) = false :=
    Location.not_contains_of_parting (Ne.symm hu) parent path []
  obtain ⟨z, hz, hz'⟩ := (delete_child_iff_turnsInto.1 hx).of_carries (Change.carries_removal hu)
    (delete_child_iff_turnsInto.1 hy)
  exact ⟨x, y, _, _, z, hx, hy, hb, Location.afterRemoval_child_of_not_contains ha s,
    delete_child_iff_turnsInto.2 hz, delete_child_iff_turnsInto.2 hz'⟩

theorem deletesCommute_of_not_contains (hx : t.delete a = .ok x) (hy : t.delete b = .ok y)
    (hab : a.contains b = false) (hba : b.contains a = false) : t.DeletesCommute a b := by
  rcases a.eq_root_or_exists_child with rfl | ⟨p, r, rfl⟩
  · rw [Location.root_contains] at hab
    cases hab
  rcases b.eq_root_or_exists_child with rfl | ⟨q, s, rfl⟩
  · rw [Location.root_contains] at hba
    cases hba
  rcases Location.position_cases p q with ⟨k, u, v, path, path', hv, rfl, rfl⟩ | rfl |
    ⟨u, path, rfl⟩ | ⟨u, path, rfl⟩
  · exact deletesCommute_of_parting hv hx hy
  · have hb : p.child s.group s.index = p.along [s] := rfl
    exact deletesCommute_of_siblings (Location.ne_of_child_not_contains (hb ▸ hab)) hx hy
  · have hb := Location.child_eq_along p s (u :: path)
    exact deletesCommute_of_below (Location.ne_of_child_not_contains (hb ▸ hab)) hx hy
  · have ha := Location.child_eq_along q r (u :: path)
    exact (deletesCommute_of_below (Location.ne_of_child_not_contains (ha ▸ hba)) hy hx).symm

/-- **Edits at different places commute.** Of two nodes that are there, neither below the other,
either can be taken out first, and then the other at its location, read anew: the result is the
same tree. A node below another goes with it, so it is of no matter that it was taken out before.
An edit of the head of a node is of no matter if the node goes. If it stays, the edit can be made
before or after the removal, then at the location read anew, and again the result is the same. -/
theorem delete_commutes (t : Tree) :
    (∀ a b, (t.nodeAt? a).isSome → (t.nodeAt? b).isSome →
      (a.contains b = false → b.contains a = false →
        ∃ x y a' b' z, t.delete a = .ok x ∧ t.delete b = .ok y ∧
          b.afterRemoval a = some b' ∧ a.afterRemoval b = some a' ∧
          x.delete b' = .ok z ∧ y.delete a' = .ok z) ∧
      (a.IsAbove b → ∃ y z, t.delete b = .ok y ∧ t.delete a = .ok z ∧ y.delete a = .ok z)) ∧
    ∀ (e : HeadEdit) (l removed : Location) (x : Tree), (t.nodeAt? removed).isSome →
      (e.editAt l).run t = .ok x → ∃ y, t.delete removed = .ok y ∧
        (removed.contains l = true → x.delete removed = .ok y) ∧
        (removed.contains l = false → ∃ l' z, l.afterRemoval removed = some l' ∧
          x.delete removed = .ok z ∧ (e.editAt l').run y = .ok z) := by
  refine ⟨fun a b ha hb => ?_, fun e l removed x hr hx => ?_⟩
  · obtain ⟨x, hx⟩ := exists_delete_iff.2 ha
    obtain ⟨y, hy⟩ := exists_delete_iff.2 hb
    refine ⟨deletesCommute_of_not_contains hx hy, fun habove => ⟨y, x, hy, hx, ?_⟩⟩
    obtain ⟨parent, s, rfl, hparent⟩ := habove.exists_child
    obtain ⟨path, rfl⟩ := Location.contains_iff_exists_along.1 hparent
    exact (delete_child_iff_turnsInto.1 hy).delete_of_within hx
  · obtain ⟨y, hy⟩ := exists_delete_iff.2 hr
    refine ⟨y, hy, fun hin => ?_, fun hout => ?_⟩
    · obtain ⟨path, rfl⟩ := Location.contains_iff_exists_along.1 hin
      exact (HeadEdit.run_editAt_iff.1 hx).delete_of_within hy
    · exact HeadEdit.run_of_delete hx hy hout

/-- The first item and the one below the second: when the first is gone, the other is below it. -/
theorem delete_commutes_checklist :
    ∃ x y z, (ofDescription checklist).delete (Location.root.child "items" 0) = .ok x ∧
      (ofDescription checklist).delete ((Location.root.child "items" 1).child "items" 0) = .ok y ∧
      x.delete ((Location.root.child "items" 0).child "items" 0) = .ok z ∧
      y.delete (Location.root.child "items" 0) = .ok z := by
  obtain ⟨x, y, a, b, z, hx, hy, hb, ha, hz, hz'⟩ :=
    ((delete_commutes (ofDescription checklist)).1 (Location.root.child "items" 0)
      ((Location.root.child "items" 1).child "items" 0) rfl rfl).1 rfl rfl
  cases ha
  cases hb
  exact ⟨x, y, z, hx, hy, hz, hz'⟩

end Tree
end BlockEdit
