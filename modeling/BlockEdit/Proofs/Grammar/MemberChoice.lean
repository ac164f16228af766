/-
The member behind the shape of a node. The choice for an alternative type is
one among shapes, and two members may have the same shape. The names of the
members are chosen from in the same way and in the same order
(`Grammar.memberFor?`), so that a node can be given the name of the member
that it was taken for: `shapeOf?_eq_shape?_memberFor?` says that the name
has the shape.

Where some member declares whatever the node has and misses no property, the
first such member is the one (`exists_memberFor?_eq_find?`).
-/
import BlockEdit.Proofs.Grammar.Reach
import BlockEdit.Proofs.Grammar.ShapeChoice

namespace BlockEdit.Grammar

variable {g : Grammar} {n : Node} {a m : TypeName} {c : Shape} {members : List TypeName}

/-- The shape of this name declares whatever the node has. -/
def fitsAs (g : Grammar) (n : Node) (a : TypeName) : Bool := (g.shape? a).any (·.fits n)

/-- The node has all properties that are not optional in the shape of this name. -/
def isCompleteAs (g : Grammar) (n : Node) (a : TypeName) : Bool := (g.shape? a).any (·.isCompleteIn n)

/-- The shape of this name declares whatever the node has, and the node misses no property. -/
def suits (g : Grammar) (n : Node) (a : TypeName) : Bool := g.fitsAs n a && g.isCompleteAs n a

/-- Of the members that declare whatever the node has, the first that misses no property, or
else the first. -/
def memberFor? (g : Grammar) (n : Node) : Option TypeName :=
  let fitting := (g.standsFor n.name).filter (g.fitsAs n)
  (fitting.find? (g.isCompleteAs n)).or fitting.head?

/-- The shapes in question are those of the members in question. -/
theorem filter_candidates (g : Grammar) (n : Node) :
    (g.candidates n.name).filter (·.fits n) =
      ((g.standsFor n.name).filter (g.fitsAs n)).filterMap g.shape? := by
  rw [candidates, List.filter_filterMap, List.filterMap_filter]
  refine congrArg (List.filterMap · (g.standsFor n.name)) (funext fun a => ?_)
  rw [fitsAs]
  cases g.shape? a with
  | none => rfl
  | some c => rfl

/-- To prefer a shape is to prefer its name. -/
theorem preferred_filterMap {as : List TypeName} (h : ∀ a ∈ as, ∃ c, g.shape? a = some c) :
    preferred n (as.filterMap g.shape?) =
      ((as.find? (g.isCompleteAs n)).or as.head?).bind g.shape? := by
  have hfind : (as.filterMap g.shape?).find? (·.isCompleteIn n) =
      (as.find? (g.isCompleteAs n)).bind g.shape? := List.find?_filterMap
  rw [preferred, hfind]
  cases hcomplete : as.find? (g.isCompleteAs n) with
  | some a =>
    obtain ⟨c, hc⟩ := h a (List.mem_of_find?_eq_some hcomplete)
    simp only [Option.bind_some, hc, Option.some_or]
  | none =>
    simp only [Option.bind_none, Option.none_or]
    cases as with
    | nil => rfl
    | cons a as =>
      obtain ⟨c, hc⟩ := h a List.mem_cons_self
      rw [List.filterMap_cons_some hc, List.head?_cons, List.head?_cons, Option.bind_some, hc]

theorem exists_shape?_of_mem_standsFor (h : m ∈ g.standsFor a) : ∃ c, g.shape? m = some c :=
  (mem_standsFor_iff.1 h).2

/-- **The chosen member** has the shape that is chosen. -/
theorem shapeOf?_eq_shape?_memberFor? (hg : g.get? n.name = some (.oneOf members)) :
    g.shapeOf? n = (g.memberFor? n).bind g.shape? := by
  rw [shapeOf?_of_oneOf hg, filter_candidates, memberFor?]
  exact preferred_filterMap fun a ha => exists_shape?_of_mem_standsFor (List.mem_filter.1 ha).1

theorem mem_standsFor_of_memberFor? (h : g.memberFor? n = some m) : m ∈ g.standsFor n.name := by
  simp only [memberFor?, Option.or_eq_some_iff] at h
  rcases h with h | ⟨-, h⟩
  · exact (List.mem_filter.1 (List.mem_of_find?_eq_some h)).1
  · exact (List.mem_filter.1 (List.mem_of_head? h)).1

/-- Where a member suits the node, the first that does is chosen. -/
theorem exists_memberFor?_eq_find? (hm : m ∈ g.standsFor n.name) (hsuits : g.suits n m = true) :
    ∃ a, g.memberFor? n = some a ∧ (g.standsFor n.name).find? (g.suits n) = some a := by
  have hfirst : ((g.standsFor n.name).filter (g.fitsAs n)).find? (g.isCompleteAs n) =
      (g.standsFor n.name).find? (g.suits n) := by
    rw [List.find?_filter]
    refine congrArg (List.find? · (g.standsFor n.name)) (funext fun a => ?_)
    rw [suits, Bool.decide_and, Bool.decide_eq_true, Bool.decide_eq_true]
  have hsome : ((g.standsFor n.name).find? (g.suits n)).isSome :=
    List.find?_isSome.2 ⟨m, hm, hsuits⟩
  obtain ⟨a, ha⟩ := Option.isSome_iff_exists.1 hsome
  refine ⟨a, ?_, ha⟩
  rw [memberFor?, hfirst, ha, Option.some_or]

/-! ## The node under the name of its member -/

/-- The name of the shape that a node is taken for: its own, or that of the chosen member. -/
def resolvedName (g : Grammar) (n : Node) : TypeName :=
  match g.get? n.name with
  | some (.oneOf _) => (g.memberFor? n).getD n.name
  | _ => n.name

theorem resolvedName_of_concrete (h : g.get? n.name = some (.concrete c)) :
    g.resolvedName n = n.name := by
  rw [resolvedName, h]

/-- Where a shape is found for a node of an alternative type, it goes by the chosen member. -/
theorem memberFor?_eq_resolvedName (hg : g.get? n.name = some (.oneOf members))
    (h : g.shapeOf? n = some c) :
    g.memberFor? n = some (g.resolvedName n) ∧ g.get? (g.resolvedName n) = some (.concrete c) := by
  rw [shapeOf?_eq_shape?_memberFor? hg] at h
  obtain ⟨m, hm, hc⟩ := Option.bind_eq_some_iff.1 h
  have hname : g.resolvedName n = m := by
    rw [resolvedName, hg]
    dsimp only
    rw [hm, Option.getD_some]
  rw [hname]
  exact ⟨hm, shape?_eq_some_iff.1 hc⟩

/-- A node that has a shape has the one of the resolved name, and its own name covers that. -/
theorem resolvedName_of_shapeOf? (h : g.shapeOf? n = some c) :
    g.get? (g.resolvedName n) = some (.concrete c) ∧
      g.covers n.name (g.resolvedName n) = true := by
  obtain ⟨type, hg⟩ := Option.isSome_iff_exists.1 (defines_of_shapeOf? h)
  cases type with
  | concrete c' =>
    rw [shapeOf?_of_concrete hg] at h
    rw [resolvedName_of_concrete hg, hg]
    exact ⟨congrArg (some ∘ TypeDef.concrete) (Option.some.inj h), g.covers_refl _⟩
  | oneOf members =>
    obtain ⟨hm, hc⟩ := memberFor?_eq_resolvedName hg h
    exact ⟨hc, (mem_standsFor_iff.1 (mem_standsFor_of_memberFor? hm)).1⟩

end BlockEdit.Grammar
