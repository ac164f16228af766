/-
Which shape is chosen for a node, and what leaves the choice as it is.

For an alternative type the choice is made among the shapes that declare
whatever the node has (`Shape.Declares`), so it depends on the names of its
properties and groups. Giving the node one more group may put shapes out of
the question. The chosen one stays chosen if it declares that group
(`shapeOf?_setGroup`): it was preferred to shapes that are still there, and
the others do not matter.
-/
import BlockEdit.Grammar

namespace BlockEdit

namespace Shape

variable {c : Shape}

theorem property?_isSome_iff {name : String} :
    (c.property? name).isSome = true ↔ ∃ p ∈ c.properties, p.name = name := by
  simp [property?]

theorem group?_isSome_iff {name : String} :
    (c.group? name).isSome = true ↔ ∃ d ∈ c.groups, d.name = name := by
  simp [group?]

theorem group?_eq_none_iff {name : String} :
    c.group? name = none ↔ ∀ d ∈ c.groups, d.name ≠ name := by
  simp [group?]

theorem of_group?_eq_some {name : String} {d : GroupDecl} (h : c.group? name = some d) :
    d ∈ c.groups ∧ d.name = name := by
  refine ⟨List.mem_of_find?_eq_some h, ?_⟩
  simpa using List.find?_some h

section
variable {group : String} {d d' : GroupDecl}

theorem group?_of_once (once : c.groups.filter (·.name = group) = [d]) :
    c.group? group = some d := by
  rw [group?, ← List.head?_filter, once, List.head?_cons]

theorem eq_of_once (once : c.groups.filter (·.name = group) = [d]) (hd : d' ∈ c.groups)
    (hname : d'.name = group) : d' = d := by
  have hmem : d' ∈ c.groups.filter (·.name = group) := List.mem_filter.2 ⟨hd, by simpa⟩
  rwa [once, List.mem_singleton] at hmem

end

/-- Every property and every group that the node has is declared. -/
def Declares (c : Shape) (n : Node) : Prop :=
  (∀ key ∈ Entries.keys n.properties, ∃ p ∈ c.properties, p.name = key) ∧
    ∀ group ∈ Entries.keys n.groups, ∃ d ∈ c.groups, d.name = group

theorem fits_iff_declares {n : Node} : c.fits n = true ↔ c.Declares n := by
  simp only [fits, Declares, Entries.keys, Bool.and_eq_true, List.all_eq_true, List.mem_map,
    property?_isSome_iff, group?_isSome_iff, forall_exists_index, and_imp,
    forall_apply_eq_imp_iff₂]

/-- What a node has to be declared are the names of its properties and groups. -/
theorem declares_congr {m n : Node}
    (hproperties : ∀ key, (m.property? key).isSome = (n.property? key).isSome)
    (hgroups : ∀ group, m.hasGroup group = n.hasGroup group) : c.Declares m ↔ c.Declares n := by
  have hkeys : ∀ key, key ∈ Entries.keys m.properties ↔ key ∈ Entries.keys n.properties := by
    intro key
    rw [← Entries.has_iff, ← Entries.has_iff]
    exact iff_of_eq (congrArg (· = true) (hproperties key))
  have hnames : ∀ group, group ∈ Entries.keys m.groups ↔ group ∈ Entries.keys n.groups := by
    intro group
    rw [← Entries.has_iff, ← Entries.has_iff]
    exact iff_of_eq (congrArg (· = true) (hgroups group))
  simp only [Declares, hkeys, hnames]

/-- With one more group, or other children in a group, a node has that group to declare
besides what it had. -/
theorem declares_setGroup {n : Node} {group : String} {children : List Node} :
    c.Declares (n.setGroup group children) ↔ c.Declares n ∧ ∃ d ∈ c.groups, d.name = group := by
  have hkeys : Entries.keys (n.setGroup group children).groups =
      if group ∈ Entries.keys n.groups then Entries.keys n.groups
      else Entries.keys n.groups ++ [group] := Entries.keys_put ..
  simp only [Declares, hkeys]
  by_cases hmem : group ∈ Entries.keys n.groups
  · simp only [hmem, if_true]
    exact ⟨fun h => ⟨h, h.2 group hmem⟩, fun h => h.1⟩
  · simp only [hmem, if_false, List.mem_append, List.mem_singleton, or_imp, forall_and,
      forall_eq, and_assoc]
    exact Iff.rfl

end Shape

namespace Grammar

variable {g : Grammar}

/-- The shapes that a name stands for. -/
def candidates (g : Grammar) (name : TypeName) : List Shape := (g.standsFor name).filterMap g.shape?

/-- The first shape that misses no property, or else the first. -/
def preferred (n : Node) (cs : List Shape) : Option Shape :=
  (cs.find? (·.isCompleteIn n)).or cs.head?

theorem preferred_eq_none_iff {n : Node} {cs : List Shape} : preferred n cs = none ↔ cs = [] := by
  cases cs with
  | nil => simp [preferred]
  | cons c cs => simp [preferred]

theorem mem_of_preferred {n : Node} {cs : List Shape} {c : Shape} (h : preferred n cs = some c) :
    c ∈ cs := by
  simp only [preferred, Option.or_eq_some_iff] at h
  rcases h with h | ⟨-, h⟩
  · exact List.mem_of_find?_eq_some h
  · exact List.mem_of_head? h

/-- Fewer shapes to choose from do not change the choice if it is still there. -/
theorem preferred_filter {n : Node} {cs : List Shape} {c : Shape} {q : Shape → Bool}
    (h : preferred n cs = some c) (hq : q c = true) : preferred n (cs.filter q) = some c := by
  simp only [preferred, Option.or_eq_some_iff] at h ⊢
  rcases h with h | ⟨hnone, hhead⟩
  · left
    obtain ⟨hc, before, after, rfl, hbefore⟩ := List.find?_eq_some_iff_append.1 h
    rw [List.filter_append, List.filter_cons_of_pos hq, List.find?_append]
    have hfirst : (before.filter q).find? (·.isCompleteIn n) = none := by
      rw [List.find?_eq_none]
      intro d hd
      simpa using hbefore d (List.mem_filter.1 hd).1
    rw [hfirst, Option.none_or, List.find?_cons, hc]
  · right
    refine ⟨?_, ?_⟩
    · rw [List.find?_eq_none] at hnone ⊢
      exact fun d hd => hnone d (List.mem_filter.1 hd).1
    · obtain ⟨rest, rfl⟩ := List.head?_eq_some_iff.1 hhead
      rw [List.filter_cons_of_pos hq, List.head?_cons]

theorem shapeOf?_of_concrete {n : Node} {c : Shape} (h : g.get? n.name = some (.concrete c)) :
    g.shapeOf? n = some c := by
  rw [shapeOf?, h]

theorem shapeOf?_of_oneOf {n : Node} {members : List TypeName}
    (h : g.get? n.name = some (.oneOf members)) :
    g.shapeOf? n = preferred n ((g.candidates n.name).filter (·.fits n)) := by
  rw [shapeOf?, h]
  rfl

/-- The shape that is chosen out of several declares whatever the node has. -/
theorem declares_of_shapeOf? {n : Node} {c : Shape} {members : List TypeName}
    (hg : g.get? n.name = some (.oneOf members)) (h : g.shapeOf? n = some c) : c.Declares n := by
  rw [shapeOf?_of_oneOf hg] at h
  exact Shape.fits_iff_declares.1 (List.mem_filter.1 (mem_of_preferred h)).2

theorem defines_of_shapeOf? {n : Node} {c : Shape} (h : g.shapeOf? n = some c) :
    g.defines n.name = true := by
  rw [defines]
  cases hg : g.get? n.name with
  | none => simp [shapeOf?, hg] at h
  | some type => rfl

/-- The shape of a node is that of some concrete type. -/
theorem exists_shape?_of_shapeOf? {n : Node} {c : Shape} (h : g.shapeOf? n = some c) :
    ∃ name, g.shape? name = some c := by
  obtain ⟨type, hg⟩ := Option.isSome_iff_exists.1 (defines_of_shapeOf? h)
  cases type with
  | concrete c' =>
    rw [shapeOf?_of_concrete hg] at h
    cases h
    exact ⟨n.name, by rw [shape?, hg]⟩
  | oneOf members =>
    rw [shapeOf?_of_oneOf hg] at h
    obtain ⟨name, -, hname⟩ := List.mem_filterMap.1 (List.mem_filter.1 (mem_of_preferred h)).1
    exact ⟨name, hname⟩

/-- A type that is defined has no shape for a node just when it is an alternative
type and none of its shapes declares what the node has. -/
theorem shapeOf?_eq_none_iff {n : Node} (hd : g.defines n.name = true) :
    g.shapeOf? n = none ↔ (∃ members, g.get? n.name = some (.oneOf members)) ∧
      ∀ a ∈ g.standsFor n.name, ∀ c, g.shape? a = some c → ¬ c.Declares n := by
  obtain ⟨type, hg⟩ := Option.isSome_iff_exists.1 hd
  cases type with
  | concrete c => simp [shapeOf?_of_concrete hg, hg]
  | oneOf members =>
    rw [shapeOf?_of_oneOf hg, preferred_eq_none_iff, List.filter_eq_nil_iff]
    simp only [candidates, List.mem_filterMap, Shape.fits_iff_declares, hg, Option.some.injEq,
      TypeDef.oneOf.injEq, exists_eq', true_and, forall_exists_index, and_imp]
    exact ⟨fun h a ha c hc => h c a ha hc, fun h c a ha hc => h a ha c hc⟩

/-- Nodes of one type with the same names of properties and of groups have the same shape. -/
theorem shapeOf?_congr {m n : Node} (hname : m.name = n.name)
    (hproperties : ∀ key, (m.property? key).isSome = (n.property? key).isSome)
    (hgroups : ∀ group, m.hasGroup group = n.hasGroup group) : g.shapeOf? m = g.shapeOf? n := by
  have hfits : ∀ c : Shape, c.fits m = c.fits n := by
    intro c
    rw [Bool.eq_iff_iff, Shape.fits_iff_declares, Shape.fits_iff_declares]
    exact Shape.declares_congr hproperties hgroups
  have hcomplete : ∀ c : Shape, c.isCompleteIn m = c.isCompleteIn n := by
    intro c
    simp only [Shape.isCompleteIn, hproperties]
  simp only [shapeOf?, hname, hfits, hcomplete]

/-! ## One more group -/

theorem preferred_setGroup (n : Node) (group : String) (children : List Node) (cs : List Shape) :
    preferred (n.setGroup group children) cs = preferred n cs := rfl

/-- Children may come and go in a group that the chosen shape declares, and the
group itself may come: the shape stays. -/
theorem shapeOf?_setGroup {n : Node} {c : Shape} {group : String} (children : List Node)
    (h : g.shapeOf? n = some c) (hd : (c.group? group).isSome = true) :
    g.shapeOf? (n.setGroup group children) = some c := by
  obtain ⟨type, hg⟩ := Option.isSome_iff_exists.1 (defines_of_shapeOf? h)
  cases type with
  | concrete c' =>
    rw [shapeOf?_of_concrete hg] at h
    rw [shapeOf?_of_concrete (n := n.setGroup group children) hg, h]
  | oneOf members =>
    rw [shapeOf?_of_oneOf hg] at h
    rw [shapeOf?_of_oneOf (n := n.setGroup group children) hg, preferred_setGroup]
    have hfilter : (g.candidates n.name).filter (·.fits (n.setGroup group children)) =
        ((g.candidates n.name).filter (·.fits n)).filter fun c => (c.group? group).isSome := by
      rw [List.filter_filter]
      refine List.filter_congr fun c' _ => ?_
      rw [Bool.eq_iff_iff, Bool.and_eq_true, Shape.fits_iff_declares, Shape.fits_iff_declares,
        Shape.declares_setGroup, Shape.group?_isSome_iff, and_comm]
    exact hfilter ▸ preferred_filter h hd

/-- Where some shape is left with the group, there was one without it. -/
theorem exists_shapeOf?_of_setGroup {n : Node} {c : Shape} {group : String} {children : List Node}
    (h : g.shapeOf? (n.setGroup group children) = some c) : ∃ c', g.shapeOf? n = some c' := by
  have hd : g.defines n.name = true := defines_of_shapeOf? (n := n.setGroup group children) h
  rw [← Option.ne_none_iff_exists']
  intro hnone
  obtain ⟨⟨members, hg⟩, hall⟩ := (shapeOf?_eq_none_iff hd).1 hnone
  have hnone' : g.shapeOf? (n.setGroup group children) = none := by
    refine (shapeOf?_eq_none_iff (n := n.setGroup group children) hd).2 ⟨⟨members, hg⟩, ?_⟩
    exact fun a ha c' hc' hdecl => hall a ha c' hc' (Shape.declares_setGroup.1 hdecl).1
  rw [hnone'] at h
  cases h

end Grammar
end BlockEdit
