/-
What is reported of a node, part by part: of its properties, of each of its
groups, and of each child together with all that is below it. The report is
the parts in a row (`Node.faults_eq_flatMap_parts`): the properties first, and
then group by group, the declared groups ahead of the others, and a group
ahead of its children.

A fault shows by its location and its cause to which part it belongs, and it
belongs to one part at most (`Part.eq_of_covers`). So nothing is reported
twice, and two faults of different parts stand as their parts do
(`Part.Ahead`). All this is so if no shape declares a name twice; if it
does, its groups are gone through as often as they are declared.
-/
import BlockEdit.Proofs.Inspection.Exactness
import BlockEdit.Proofs.Inspection.Relocation
import BlockEdit.Proofs.Location.Removal
import Mathlib.Data.List.Flatten
import Mathlib.Data.List.Nodup

namespace BlockEdit

/-! ## Two items of a list -/

section
variable {α β : Type} {as bs : List α} {a b : α} {f : α → List β} {x y : β}

/-- The one item stands ahead of the other. -/
def Precedes (as : List α) (a b : α) : Prop := [a, b].Sublist as

theorem Precedes.of_sublist (h : Precedes as a b) (hs : as.Sublist bs) : Precedes bs a b :=
  List.Sublist.trans h hs

theorem Precedes.mem_right (h : Precedes as a b) : b ∈ as :=
  h.subset (List.mem_cons_of_mem _ (List.mem_singleton_self b))

theorem precedes_cons (h : b ∈ as) : Precedes (a :: as) a b :=
  List.cons_sublist_cons.2 (List.singleton_sublist.2 h)

theorem precedes_append (ha : a ∈ as) (hb : b ∈ bs) : Precedes (as ++ bs) a b :=
  (List.singleton_sublist.2 ha).append (List.singleton_sublist.2 hb)

theorem Precedes.map {γ : Type} (h : Precedes as a b) (k : α → γ) :
    Precedes (as.map k) (k a) (k b) := List.Sublist.map k h

/-- What comes of the one item stands ahead of what comes of the other. -/
theorem Precedes.flatMap (h : Precedes as a b) (hx : x ∈ f a) (hy : y ∈ f b) :
    Precedes (as.flatMap f) x y := by
  have hpair : Precedes ([a, b].flatMap f) x y := by
    rw [List.flatMap_cons, List.flatMap_singleton]
    exact precedes_append hx hy
  exact hpair.of_sublist (List.Sublist.flatMap h f)

theorem precedes_or_precedes (ha : a ∈ as) (hb : b ∈ as) (hne : a ≠ b) :
    Precedes as a b ∨ Precedes as b a := by
  induction as with
  | nil => cases ha
  | cons c as ih =>
    rcases List.mem_cons.1 ha with rfl | ha'
    · exact .inl (precedes_cons ((List.mem_cons.1 hb).resolve_left hne.symm))
    · rcases List.mem_cons.1 hb with rfl | hb'
      · exact .inr (precedes_cons ha')
      · have hcons := List.sublist_cons_self c as
        exact (ih ha' hb').imp (·.of_sublist hcons) (·.of_sublist hcons)

/-- In a list without duplicates the order is not the other way around as well. -/
theorem Precedes.asymm (h : Precedes as a b) (hd : as.Nodup) : ¬ Precedes as b a := by
  intro h'
  induction as with
  | nil => cases h
  | cons c as ih =>
    obtain ⟨hc, hd⟩ := List.nodup_cons.1 hd
    cases h with
    | cons _ h =>
      cases h' with
      | cons _ h' => exact ih h hd h'
      | cons_cons _ h' => exact hc (Precedes.mem_right h)
    | cons_cons _ h =>
      cases h' with
      | cons _ h' => exact hc (Precedes.mem_right h')
      | cons_cons _ h' => exact hc (List.singleton_sublist.1 h)

theorem precedes_range {i j k : Nat} (hij : i < j) (hj : j < k) :
    Precedes (List.range k) i j := by
  have hi : i ∈ List.range k := List.mem_range.2 (by omega)
  rcases precedes_or_precedes hi (List.mem_range.2 hj) (by omega) with h | h
  · exact h
  · have hlt := List.pairwise_iff_forall_sublist.1 List.pairwise_lt_range h
    omega

/-- Going through a list with the indices is going through the indices. -/
theorem flatMap_zipIdx_eq_flatMap_range {k : Nat → List β} {f : α × Nat → List β}
    (h : ∀ i a, as[i]? = some a → f (a, i) = k i) :
    as.zipIdx.flatMap f = (List.range as.length).flatMap k := by
  rw [List.range_eq_range', ← List.zipIdx_map_snd 0 as, List.flatMap_map]
  exact List.flatMap_congr fun e he => h e.2 e.1 (List.mem_zipIdx_iff_getElem?.1 he)

/-- To leave items out is to let nothing come of them. -/
theorem flatMap_filter (p : α → Bool) (as : List α) (f : α → List β) :
    (as.filter p).flatMap f = as.flatMap fun a => if p a then f a else [] := by
  induction as with
  | nil => rfl
  | cons a as ih =>
    rw [List.filter_cons, List.flatMap_cons, ← ih]
    cases p a <;> simp

/-- Parts without duplicates that have nothing in common make a list without duplicates. -/
theorem nodup_flatMap_of_parts {P : α → β → Prop} (hd : as.Nodup)
    (hparts : ∀ a ∈ as, (f a).Nodup) (hP : ∀ a, ∀ x ∈ f a, P a x)
    (hunique : ∀ a b x, P a x → P b x → a = b) : (as.flatMap f).Nodup := by
  refine List.nodup_flatMap.2 ⟨hparts, hd.imp fun hne => ?_⟩
  exact List.disjoint_left.2 fun x hx hx' => hne (hunique _ _ x (hP _ x hx) (hP _ x hx'))

end

/-! ## Parts of a report -/

namespace Fault.Cause

/-- The property of the node that it is about. -/
def property? : Cause → Option String
  | propertyMissing property | propertyUndeclared property | valueRefused property .. =>
    some property
  | _ => none

/-- The group of the node that it is about. -/
def group? : Cause → Option String
  | groupShort group _ | groupOverfull group .. | groupUndeclared group => some group
  | _ => none

end Fault.Cause

/-- A part of what is reported of a node. -/
inductive Part where
  /-- What is wrong with its properties. -/
  | properties
  /-- What is wrong with a group as a whole. -/
  | group (name : String)
  /-- What is wrong with a child, or below it. -/
  | child (s : Step)
deriving DecidableEq, Repr

namespace Part

/-- The group that the part is about; the part of the properties is about none. -/
def group? : Part → Option String
  | properties => none
  | group name => some name
  | child s => some s.group

/-- The fault belongs to this part of what is reported of the node at the location. -/
def Covers (l : Location) : Part → Fault → Prop
  | properties, f => f.location = l ∧ f.cause.property?.isSome
  | group name, f => f.location = l ∧ f.cause.group? = some name
  | child s, f => (l.child s.group s.index).contains f.location = true

variable {l : Location} {p q : Part} {f : Fault}

theorem Covers.location_ne {s : Step} (h : (child s).Covers l f) : f.location ≠ l := by
  rintro rfl
  rw [Covers, Location.child_not_contains] at h
  cases h

theorem Covers.contains (h : p.Covers l f) : l.contains f.location = true := by
  cases p with
  | properties | group name => exact h.1 ▸ Location.contains_refl _
  | child s =>
    have hchild := Location.contains_child (Location.contains_refl l) s
    exact Location.contains_iff.2 ((Location.contains_iff.1 hchild).trans (Location.contains_iff.1 h))

/-- What is said of the node itself, and of no property or group of it, belongs to no part. -/
theorem Covers.ne {cause : Fault.Cause} (h : p.Covers l f) (hproperty : cause.property? = none)
    (hgroup : cause.group? = none) : f ≠ ⟨l, cause⟩ := by
  rintro rfl
  cases p with
  | properties => simp [Covers, hproperty] at h
  | group name => simp [Covers, hgroup] at h
  | child s => exact h.location_ne rfl

/-- A fault below a node belongs to the part of a child. -/
theorem exists_child_covers (h : l.contains f.location = true) (hne : f.location ≠ l) :
    ∃ s, (child s).Covers l f := by
  obtain ⟨path, hpath⟩ := Location.contains_iff_exists_along.1 h
  cases path with
  | nil => exact absurd (hpath.trans l.along_nil) hne
  | cons s path =>
    rw [← Location.along_child] at hpath
    exact ⟨s, Location.contains_iff_exists_along.2 ⟨path, hpath⟩⟩

/-- Two children have nothing in common. -/
theorem step_eq_of_covers {s u : Step} (h : (child s).Covers l f) (h' : (child u).Covers l f) :
    s = u := by
  obtain ⟨path, hpath⟩ := Location.contains_iff_exists_along.1 h
  obtain ⟨path', hpath'⟩ := Location.contains_iff_exists_along.1 h'
  rw [Location.along_child] at hpath hpath'
  exact (List.cons.inj (l.along_injective (hpath.symm.trans hpath'))).1

/-- A fault belongs to one part at most. -/
theorem eq_of_covers (h : p.Covers l f) (h' : q.Covers l f) : p = q := by
  have hcause : f.cause.property?.isSome = true → f.cause.group? = none := by
    cases f.cause <;> simp [Fault.Cause.property?, Fault.Cause.group?]
  cases p with
  | properties =>
    cases q with
    | properties => rfl
    | group name =>
      have hnone := (hcause h.2).symm.trans h'.2
      cases hnone
    | child s => exact absurd h.1 h'.location_ne
  | group name =>
    cases q with
    | properties =>
      have hnone := (hcause h'.2).symm.trans h.2
      cases hnone
    | group name' => exact congrArg group (Option.some.inj (h.2.symm.trans h'.2))
    | child s => exact absurd h.1 h'.location_ne
  | child s =>
    cases q with
    | properties | group name => exact absurd h'.1 h.location_ne
    | child u => exact congrArg child (step_eq_of_covers h h')

end Part

/-! ## Shapes that declare no name twice -/

/-- No two properties and no two groups of the shape have the same name. -/
def Shape.DeclaresOnce (c : Shape) : Prop :=
  (c.properties.map (·.name)).Nodup ∧ (c.groups.map (·.name)).Nodup

instance (c : Shape) : Decidable c.DeclaresOnce :=
  inferInstanceAs (Decidable (_ ∧ _))

/-- No type of the grammar declares a name twice. -/
def Grammar.DeclaresOnce (g : Grammar) : Prop :=
  ∀ name c, g.shape? name = some c → c.DeclaresOnce

theorem Grammar.DeclaresOnce.shapeOf? {g : Grammar} (h : g.DeclaresOnce) {n : Node} {c : Shape}
    (hc : g.shapeOf? n = some c) : c.DeclaresOnce := by
  obtain ⟨name, hname⟩ := exists_shape?_of_shapeOf? hc
  exact h name c hname

namespace Shape

variable {c : Shape} {n : Node} {a b : String}

/-- A group that is declared once is found by its name. -/
theorem group?_of_mem (h : c.DeclaresOnce) {d : GroupDecl} (hd : d ∈ c.groups) :
    c.group? d.name = some d := by
  obtain ⟨d', hd'⟩ := Option.isSome_iff_exists.1 (group?_isSome_iff.2 ⟨d, hd, rfl⟩)
  obtain ⟨hmem, hname⟩ := of_group?_eq_some hd'
  rw [hd', List.inj_on_of_nodup_map h.2 hmem hd hname]

/-- The names of the declared groups, in the order of declaration. -/
def groupNames (c : Shape) : List String := c.groups.map (·.name)

theorem group?_isSome_iff_mem_groupNames : (c.group? a).isSome = true ↔ a ∈ c.groupNames := by
  rw [group?_isSome_iff, groupNames, List.mem_map]

/-- The declared groups, and then the others that the node has, in the order of the node. -/
def groupOrder (c : Shape) (n : Node) : List String :=
  c.groupNames ++ (Entries.keys n.groups).filter fun a => (c.group? a).isNone

/-- The one group comes ahead of the other. -/
inductive GroupAhead (c : Shape) (n : Node) (a b : String) : Prop where
  /-- Declared groups come in the order of declaration. -/
  | declared (order : Precedes c.groupNames a b)
  /-- Those that are not declared come behind them. -/
  | declaredFirst (declared : a ∈ c.groupNames) (other : b ∉ c.groupNames)
  /-- And they come in the order of the node. -/
  | others (other : a ∉ c.groupNames) (other' : b ∉ c.groupNames)
      (order : Precedes (Entries.keys n.groups) a b)

theorem mem_groupOrder_iff :
    a ∈ c.groupOrder n ↔ a ∈ c.groupNames ∨ a ∉ c.groupNames ∧ a ∈ Entries.keys n.groups := by
  rw [groupOrder, List.mem_append, List.mem_filter, ← group?_isSome_iff_mem_groupNames]
  cases c.group? a <;> simp

theorem nodup_groupOrder (h : c.DeclaresOnce) (wf : n.WellFormed) : (c.groupOrder n).Nodup := by
  refine List.nodup_append.2 ⟨h.2, wf.groups.filter _, fun a ha b hb hab => ?_⟩
  rw [← group?_isSome_iff_mem_groupNames] at ha
  have hnone := (List.mem_filter.1 hb).2
  rw [← hab] at hnone
  cases hg : c.group? a with
  | none => simp [hg] at ha
  | some d => simp [hg] at hnone

theorem GroupAhead.precedes (h : c.GroupAhead n a b) (hb : b ∈ c.groupOrder n) :
    Precedes (c.groupOrder n) a b := by
  cases h with
  | declared order => exact order.of_sublist (List.sublist_append_left ..)
  | declaredFirst declared other =>
    exact precedes_append declared ((List.mem_append.1 hb).resolve_left other)
  | others other other' order =>
    have hnone : ∀ {a}, a ∉ c.groupNames → (c.group? a).isNone = true := fun {a} ha => by
      rw [← group?_isSome_iff_mem_groupNames] at ha
      simpa using ha
    have hfilter := List.Sublist.filter (fun a => (c.group? a).isNone) order
    simp only [List.filter_cons, List.filter_nil, hnone other, hnone other', if_true] at hfilter
    exact Precedes.of_sublist hfilter (List.sublist_append_right ..)

theorem groupAhead_or_groupAhead (ha : a ∈ c.groupOrder n) (hb : b ∈ c.groupOrder n)
    (hne : a ≠ b) : c.GroupAhead n a b ∨ c.GroupAhead n b a := by
  rcases mem_groupOrder_iff.1 ha with ha | ⟨ha, ha'⟩
  · rcases mem_groupOrder_iff.1 hb with hb | ⟨hb, -⟩
    · exact (precedes_or_precedes ha hb hne).imp .declared .declared
    · exact .inl (.declaredFirst ha hb)
  · rcases mem_groupOrder_iff.1 hb with hb | ⟨hb, hb'⟩
    · exact .inr (.declaredFirst hb ha)
    · exact (precedes_or_precedes ha' hb' hne).imp (.others ha hb) (.others hb ha)

end Shape

/-! ## The order of the parts -/

namespace Node

variable {n : Node} {c : Shape} {a b : String} {p q : Part}

/-- The parts that are about a group: the group as a whole, and its children. -/
def groupParts (n : Node) (name : String) : List Part :=
  .group name :: (List.range (n.childrenOf name).length).map fun i => .child ⟨name, i⟩

/-- The parts of what is reported of a node of this shape, in their order. -/
def parts (n : Node) (c : Shape) : List Part :=
  .properties :: (c.groupOrder n).flatMap n.groupParts

theorem child_mem_groupParts_iff {s : Step} :
    .child s ∈ n.groupParts a ↔ s.group = a ∧ s.index < (n.childrenOf a).length := by
  obtain ⟨group, i⟩ := s
  simp only [groupParts, List.mem_cons, List.mem_map, List.mem_range, reduceCtorEq, false_or,
    Part.child.injEq, Step.mk.injEq]
  constructor
  · rintro ⟨j, hj, rfl, rfl⟩
    exact ⟨rfl, hj⟩
  · rintro ⟨rfl, hi⟩
    exact ⟨i, hi, rfl, rfl⟩

theorem group?_of_mem_groupParts (h : p ∈ n.groupParts a) : p.group? = some a := by
  rcases List.mem_cons.1 h with rfl | h
  · rfl
  · obtain ⟨i, -, rfl⟩ := List.mem_map.1 h
    rfl

theorem mem_parts_iff (ha : p.group? = some a) :
    p ∈ n.parts c ↔ a ∈ c.groupOrder n ∧ p ∈ n.groupParts a := by
  have hne : p ≠ .properties := by
    rintro rfl
    cases ha
  rw [parts, List.mem_cons, or_iff_right hne, List.mem_flatMap]
  constructor
  · rintro ⟨b, hb, hp⟩
    rw [group?_of_mem_groupParts hp] at ha
    cases ha
    exact ⟨hb, hp⟩
  · exact fun h => ⟨a, h⟩

theorem nodup_groupParts (n : Node) (name : String) : (n.groupParts name).Nodup := by
  refine List.nodup_cons.2 ⟨by simp, List.nodup_range.map fun i j h => ?_⟩
  simpa using h

theorem nodup_parts (h : c.DeclaresOnce) (wf : n.WellFormed) : (n.parts c).Nodup := by
  refine List.nodup_cons.2 ⟨fun hmem => ?_, ?_⟩
  · obtain ⟨a, -, hp⟩ := List.mem_flatMap.1 hmem
    cases group?_of_mem_groupParts hp
  · exact nodup_flatMap_of_parts (Shape.nodup_groupOrder h wf) (fun a _ => n.nodup_groupParts a)
      (fun a p hp => group?_of_mem_groupParts hp) fun a b p ha hb => Option.some.inj (ha.symm.trans hb)

end Node

namespace Part

/-- The one part of what is reported of a node comes ahead of the other. -/
inductive Ahead (c : Shape) (n : Node) : Part → Part → Prop where
  /-- The properties come first. -/
  | properties {p : Part} (other : p ≠ .properties) : Ahead c n .properties p
  /-- All that is about one group comes together. -/
  | groups {p q : Part} {a b : String} (about : p.group? = some a) (about' : q.group? = some b)
      (order : c.GroupAhead n a b) : Ahead c n p q
  /-- A group comes ahead of its children. -/
  | heading (s : Step) : Ahead c n (.group s.group) (.child s)
  /-- The children come by index. -/
  | siblings {group : String} {i j : Nat} (order : i < j) :
      Ahead c n (.child ⟨group, i⟩) (.child ⟨group, j⟩)

variable {c : Shape} {n : Node} {p q : Part}

theorem Ahead.precedes (h : p.Ahead c n q) (hp : p ∈ n.parts c) (hq : q ∈ n.parts c) :
    Precedes (n.parts c) p q := by
  have within : ∀ {a : String}, p.group? = some a → Precedes (n.groupParts a) p q →
      Precedes (n.parts c) p q := by
    intro a ha hpair
    have horder := ((Node.mem_parts_iff ha).1 hp).1
    have hgroup : (n.groupParts a).Sublist ((c.groupOrder n).flatMap n.groupParts) :=
      List.flatMap_def ▸ List.sublist_flatten_of_mem (List.mem_map_of_mem horder)
    exact (hpair.of_sublist hgroup).of_sublist (List.sublist_cons_self ..)
  cases h with
  | properties other => exact precedes_cons ((List.mem_cons.1 hq).resolve_left other)
  | groups about about' order =>
    obtain ⟨-, hp⟩ := (Node.mem_parts_iff about).1 hp
    obtain ⟨hb, hq⟩ := (Node.mem_parts_iff about').1 hq
    exact ((order.precedes hb).flatMap hp hq).of_sublist (List.sublist_cons_self ..)
  | heading s =>
    obtain ⟨-, hq⟩ := (Node.mem_parts_iff (a := s.group) rfl).1 hq
    exact within rfl (precedes_cons ((List.mem_cons.1 hq).resolve_left nofun))
  | @siblings group i j order =>
    obtain ⟨-, hq⟩ := (Node.mem_parts_iff (a := group) rfl).1 hq
    have hj := (Node.child_mem_groupParts_iff.1 hq).2
    have hpair := (precedes_range order hj).map fun i => Part.child ⟨group, i⟩
    exact within rfl (hpair.of_sublist (List.sublist_cons_self ..))

/-- Of two parts one comes first. -/
theorem ahead_or_ahead (hp : p ∈ n.parts c) (hq : q ∈ n.parts c) (hne : p ≠ q) :
    p.Ahead c n q ∨ q.Ahead c n p := by
  cases ha : p.group? with
  | none =>
    cases p with
    | properties => exact .inl (.properties hne.symm)
    | group | child => cases ha
  | some a =>
  cases hb : q.group? with
  | none =>
    cases q with
    | properties => exact .inr (.properties hne)
    | group | child => cases hb
  | some b =>
  by_cases hab : a = b
  · -- two parts about one group: it and a child, or two children
    subst hab
    cases p with
    | properties => cases ha
    | group name =>
      cases ha
      cases q with
      | properties => cases hb
      | group name =>
        cases hb
        exact absurd rfl hne
      | child s =>
        cases hb
        exact .inl (.heading s)
    | child s =>
      cases ha
      cases q with
      | properties => cases hb
      | group name =>
        cases hb
        exact .inr (.heading s)
      | child u =>
        obtain ⟨group, i⟩ := s
        obtain ⟨group', j⟩ := u
        cases hb
        rcases Nat.lt_trichotomy i j with h | rfl | h
        · exact .inl (.siblings h)
        · exact absurd rfl hne
        · exact .inr (.siblings h)
  · have horder := ((Node.mem_parts_iff ha).1 hp).1
    have horder' := ((Node.mem_parts_iff hb).1 hq).1
    exact (Shape.groupAhead_or_groupAhead horder horder' hab).imp (.groups ha hb) (.groups hb ha)

end Part

/-! ## The report in parts -/

namespace Node

variable {g : Grammar} {n : Node} {c : Shape} {l : Location} {p : Part} {f : Fault}

/-- What is reported in one part. -/
def reportOf (n : Node) (g : Grammar) (c : Shape) (l : Location) : Part → List Fault
  | .properties => (c.propertyFaults n).map (⟨l, ·⟩)
  | .group name =>
    match c.group? name with
    | some d => (d.countFaults (n.childrenOf name).length).map (⟨l, ·⟩)
    | none => [⟨l, .groupUndeclared name⟩]
  | .child s =>
    match n.child? s with
    | none => []
    | some child =>
      match c.group? s.group with
      | some d => child.faultsIn g d (l.child s.group s.index)
      | none => child.faults g (l.child s.group s.index)

theorem reportOf_child_of_group? {s : Step} {child : Node} {d : GroupDecl}
    (h : n.child? s = some child) (hd : c.group? s.group = some d) :
    n.reportOf g c l (.child s) = child.faultsIn g d (l.child s.group s.index) := by
  rw [reportOf, h, hd]

theorem reportOf_child_of_group?_eq_none {s : Step} {child : Node}
    (h : n.child? s = some child) (hd : c.group? s.group = none) :
    n.reportOf g c l (.child s) = child.faults g (l.child s.group s.index) := by
  rw [reportOf, h, hd]

theorem flatMap_groupParts (name : String) : (n.groupParts name).flatMap (n.reportOf g c l) =
    n.reportOf g c l (.group name) ++ (List.range (n.childrenOf name).length).flatMap
      fun i => n.reportOf g c l (.child ⟨name, i⟩) := by
  rw [groupParts, List.flatMap_cons, List.flatMap_map]

theorem groupFaults_eq_flatMap {d : GroupDecl} (hd : c.group? d.name = some d) :
    groupFaults g l n d = (n.groupParts d.name).flatMap (n.reportOf g c l) := by
  have hgroup : n.reportOf g c l (.group d.name) =
      (d.countFaults (n.childrenOf d.name).length).map (⟨l, ·⟩) := by
    rw [reportOf, hd]
  rw [flatMap_groupParts, groupFaults, hgroup]
  refine congrArg _ (flatMap_zipIdx_eq_flatMap_range fun i child hi => ?_)
  exact (reportOf_child_of_group? (s := ⟨d.name, i⟩) hi hd).symm

theorem strayFaults_eq_flatMap (wf : n.WellFormed) {e : String × List Node} (he : e ∈ n.groups)
    (hd : c.group? e.1 = none) :
    strayFaults g l e.1 e.2 = (n.groupParts e.1).flatMap (n.reportOf g c l) := by
  have hchildren : n.childrenOf e.1 = e.2 := by
    rw [childrenOf, Entries.get?_of_mem wf.groups he, Option.getD_some]
  have hgroup : n.reportOf g c l (.group e.1) = [⟨l, .groupUndeclared e.1⟩] := by
    rw [reportOf, hd]
  rw [flatMap_groupParts, strayFaults, hgroup, List.singleton_append, hchildren]
  refine congrArg _ (flatMap_zipIdx_eq_flatMap_range fun i child hi => ?_)
  rw [← hchildren] at hi
  exact (reportOf_child_of_group?_eq_none (s := ⟨e.1, i⟩) hi hd).symm

/-- The report of a node is that of its parts, one behind the other. -/
theorem faults_eq_flatMap_parts (hs : g.shapeOf? n = some c) (hc : c.DeclaresOnce)
    (wf : n.WellFormed) : n.faults g l = (n.parts c).flatMap (n.reportOf g c l) := by
  rw [faults_of_shapeOf? hs, parts, List.flatMap_cons, List.flatMap_assoc, Shape.groupOrder,
    List.flatMap_append, Shape.groupNames, List.flatMap_map, flatMap_filter, Entries.keys,
    List.flatMap_map, List.append_assoc, reportOf]
  congr 2
  · exact List.flatMap_congr fun d hd => groupFaults_eq_flatMap (Shape.group?_of_mem hc hd)
  · refine List.flatMap_congr fun e he => ?_
    cases hd : c.group? e.1 with
    | some d => rfl
    | none => exact strayFaults_eq_flatMap wf he hd

theorem covers_of_mem_reportOf (h : f ∈ n.reportOf g c l p) : p.Covers l f := by
  cases p with
  | properties =>
    obtain ⟨cause, hcause, rfl⟩ := List.mem_map.1 h
    refine ⟨rfl, ?_⟩
    rcases Shape.mem_propertyFaults_iff.1 hcause with
      ⟨_, -, -, -, rfl⟩ | ⟨_, -, _, -, -, rfl⟩ | ⟨_, -, -, rfl⟩ <;> rfl
  | group name =>
    rw [reportOf] at h
    split at h
    · next d hd =>
      obtain ⟨cause, hcause, rfl⟩ := List.mem_map.1 h
      refine ⟨rfl, ?_⟩
      rw [← (Shape.of_group?_eq_some hd).2]
      rcases GroupDecl.mem_countFaults_iff.1 hcause with ⟨_, -, -, rfl⟩ | ⟨_, -, -, rfl⟩ <;> rfl
    · cases List.mem_singleton.1 h
      exact ⟨rfl, rfl⟩
  | child s =>
    rw [reportOf] at h
    split at h
    · cases h
    · split at h
      · rcases mem_faultsIn_iff.1 h with ⟨-, h⟩ | ⟨-, rfl⟩
        · exact contains_of_mem_faults h
        · exact Location.contains_refl _
      · exact contains_of_mem_faults h

end Node

end BlockEdit
