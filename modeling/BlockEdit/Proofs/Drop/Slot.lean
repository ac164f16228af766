/-
What the cheap questions about a slot ask, said of the parent, its shape and
the group that the shape declares. So they have the same answers in two trees
that have nodes at the same locations, with the same shapes and as many
children (`Tree.Resembles`).
-/
import BlockEdit.Drop.Slot
import BlockEdit.Proofs.Grammar.ShapeChoice

namespace BlockEdit

namespace Tree

variable {t : Tree} {g : Grammar} {parent : Location} {group : String} {i : Nat} {cargo : Cargo}

theorem declaredSlot?_eq_some_iff {s : Step} {decl : GroupDecl} {count : Nat} :
    t.declaredSlot? g parent s = some (decl, count) ↔ ∃ n c, t.nodeAt? parent = some n ∧
      g.shapeOf? n = some c ∧ c.group? s.group = some decl ∧
      (n.childrenOf s.group).length = count := by
  simp only [declaredSlot?, Option.bind_eq_bind, Option.bind_eq_some_iff, Option.pure_def,
    Option.some.injEq, Prod.mk.injEq]
  constructor
  · intro h
    obtain ⟨n, hn, c, hc, _, hdecl, rfl, hcount⟩ := h
    exact ⟨n, c, hn, hc, hdecl, hcount⟩
  · intro h
    obtain ⟨n, c, hn, hc, hdecl, hcount⟩ := h
    exact ⟨n, hn, c, hc, decl, hdecl, rfl, hcount⟩

/-- A slot takes a cargo when the group is declared, has room and admits a form. -/
theorem slotTakes_child_iff : t.slotTakes g (parent.child group i) cargo = true ↔
    ∃ n c decl, t.nodeAt? parent = some n ∧ g.shapeOf? n = some c ∧ c.group? group = some decl ∧
      decl.bounds.takesAnother (n.childrenOf group).length = true ∧
      ∃ d ∈ cargo, g.admits decl d.typeName = true := by
  rw [slotTakes, Location.parentAndStep?_child]
  simp only [Option.any_eq_true, Prod.exists, declaredSlot?_eq_some_iff, Bool.and_eq_true,
    List.any_eq_true]
  constructor
  · intro h
    obtain ⟨decl, _, ⟨n, c, hn, hc, hdecl, rfl⟩, hroom, hadmits⟩ := h
    exact ⟨n, c, decl, hn, hc, hdecl, hroom, hadmits⟩
  · intro h
    obtain ⟨n, c, decl, hn, hc, hdecl, hroom, hadmits⟩ := h
    exact ⟨decl, _, ⟨n, c, hn, hc, hdecl, rfl⟩, hroom, hadmits⟩

/-- A slot is short of children when the group is declared and its first declaration says so. -/
theorem slotIsShort_child_iff : t.slotIsShort g (parent.child group i) = true ↔
    ∃ n c decl, t.nodeAt? parent = some n ∧ g.shapeOf? n = some c ∧ c.group? group = some decl ∧
      0 < decl.bounds.shortfall (n.childrenOf group).length := by
  rw [slotIsShort, Location.parentAndStep?_child]
  simp only [Option.any_eq_true, Prod.exists, declaredSlot?_eq_some_iff, decide_eq_true_eq]
  constructor
  · intro h
    obtain ⟨decl, _, ⟨n, c, hn, hc, hdecl, rfl⟩, hshort⟩ := h
    exact ⟨n, c, decl, hn, hc, hdecl, hshort⟩
  · intro h
    obtain ⟨n, c, decl, hn, hc, hdecl, hshort⟩ := h
    exact ⟨decl, _, ⟨n, c, hn, hc, hdecl, rfl⟩, hshort⟩

variable {n : Node} {c : Shape}

theorem slotTakes_child_iff_of_shapeOf? (hn : t.nodeAt? parent = some n)
    (hc : g.shapeOf? n = some c) : t.slotTakes g (parent.child group i) cargo = true ↔
    ∃ decl, c.group? group = some decl ∧
      decl.bounds.takesAnother (n.childrenOf group).length = true ∧
      ∃ d ∈ cargo, g.admits decl d.typeName = true := by
  rw [slotTakes_child_iff]
  constructor
  · intro h
    obtain ⟨n', c', decl, hn', hc', hrest⟩ := h
    rw [hn] at hn'
    cases hn'
    rw [hc] at hc'
    cases hc'
    exact ⟨decl, hrest⟩
  · intro h
    obtain ⟨decl, hrest⟩ := h
    exact ⟨n, c, decl, hn, hc, hrest⟩

end Tree

/-! ## Trees that answer alike -/

/-- The two nodes have the same shape, and as many children in each group. -/
structure Grammar.Resembles (g : Grammar) (m n : Node) : Prop where
  shapeOf? : g.shapeOf? m = g.shapeOf? n
  length_childrenOf (group : String) : (m.childrenOf group).length = (n.childrenOf group).length

namespace Tree

/-- The trees have nodes at the same locations, and each resembles the other. -/
def Resembles (g : Grammar) (t' t : Tree) : Prop :=
  ∀ k, (t'.nodeAt? k = none ∧ t.nodeAt? k = none) ∨
    ∃ m n, t'.nodeAt? k = some m ∧ t.nodeAt? k = some n ∧ g.Resembles m n

namespace Resembles

variable {t t' : Tree} {g : Grammar} (h : Resembles g t' t)
include h

theorem isEmpty_eq : t'.isEmpty = t.isEmpty := by
  have hroot : ∀ t : Tree, t.isEmpty = (t.nodeAt? .root).isNone := by
    intro t
    rw [isEmpty, nodeAt?]
    cases t.root <;> rfl
  rw [hroot, hroot]
  rcases h .root with ⟨hm, hn⟩ | ⟨m, n, hm, hn, -⟩
  · rw [hm, hn]
  · rw [hm, hn, Option.isNone_some, Option.isNone_some]

theorem declaredSlot?_eq (parent : Location) (s : Step) :
    t'.declaredSlot? g parent s = t.declaredSlot? g parent s := by
  rw [declaredSlot?, declaredSlot?]
  rcases h parent with ⟨hm, hn⟩ | ⟨m, n, hm, hn, halike⟩
  · rw [hm, hn]
  · rw [hm, hn]
    simp only [Option.bind_eq_bind, Option.bind_some, halike.shapeOf?, halike.length_childrenOf]

theorem slotIsEmpty_eq (l : Location) : t'.slotIsEmpty l = t.slotIsEmpty l := by
  rw [slotIsEmpty, slotIsEmpty, h.isEmpty_eq]
  cases l.parentAndStep? with
  | none => rfl
  | some place =>
    obtain ⟨parent, s⟩ := place
    dsimp only
    rcases h parent with ⟨hm, hn⟩ | ⟨m, n, hm, hn, halike⟩
    · rw [hm, hn]
    · have hlength := halike.length_childrenOf s.group
      rw [hm, hn, Option.any_some, Option.any_some, Bool.eq_iff_iff,
        List.isEmpty_iff_length_eq_zero, List.isEmpty_iff_length_eq_zero, hlength]

theorem slotIsShort_eq (l : Location) : t'.slotIsShort g l = t.slotIsShort g l := by
  simp only [slotIsShort, h.isEmpty_eq, h.declaredSlot?_eq]

theorem slotTakes_eq (l : Location) (cargo : Cargo) :
    t'.slotTakes g l cargo = t.slotTakes g l cargo := by
  simp only [slotTakes, h.declaredSlot?_eq]

end Resembles

end Tree
end BlockEdit
