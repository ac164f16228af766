/-
The faults of one node, before any walk: what its shape finds wrong with its
properties and with the number of children in a group, and what the walk
does with each child.

`faults_of_shapeOf?` is the equation of the inspection where a shape is
found, with the children themselves in place of their inspected pairs. The
membership lemmas say each fault by a rule, the lemmas on `[]` say when
there is none.
-/
import BlockEdit.Inspection
import BlockEdit.Proofs.Grammar.ShapeChoice

namespace BlockEdit

/-! ## Properties -/

namespace Shape

variable {c : Shape} {n : Node} {cause : Fault.Cause}

theorem mem_propertyFaults_iff : cause ∈ c.propertyFaults n ↔
    (∃ p ∈ c.properties, p.isOptional = false ∧ n.property? p.name = none ∧
      cause = .propertyMissing p.name) ∨
    (∃ p ∈ c.properties, ∃ value, n.property? p.name = some value ∧
      p.literal.admits value = false ∧ cause = .valueRefused p.name p.literal value) ∨
    ∃ key ∈ Entries.keys n.properties, (∀ p ∈ c.properties, p.name ≠ key) ∧
      cause = .propertyUndeclared key := by
  have hundeclared : (∃ e ∈ n.properties.filter fun e => (c.property? e.1).isNone,
      Fault.Cause.propertyUndeclared e.1 = cause) ↔
      ∃ key ∈ Entries.keys n.properties, (∀ p ∈ c.properties, p.name ≠ key) ∧
        cause = .propertyUndeclared key := by
    simp only [List.mem_filter, Entries.keys, List.mem_map, property?, Option.isNone_iff_eq_none,
      List.find?_eq_none, decide_eq_true_eq]
    constructor
    · intro h
      obtain ⟨e, ⟨he, hnot⟩, rfl⟩ := h
      exact ⟨e.1, ⟨e, he, rfl⟩, hnot, rfl⟩
    · intro h
      obtain ⟨_, ⟨e, he, rfl⟩, hnot, rfl⟩ := h
      exact ⟨e, ⟨he, hnot⟩, rfl⟩
  rw [propertyFaults, List.mem_append, List.mem_map, hundeclared, List.mem_filterMap, ← or_assoc]
  refine or_congr_left ?_
  constructor
  · intro h
    obtain ⟨p, hp, h⟩ := h
    split at h
    · next hnone =>
      split at h
      · cases h
      · next hopt =>
        cases h
        exact .inl ⟨p, hp, by simpa using hopt, hnone, rfl⟩
    · next value hvalue =>
      split at h
      · cases h
      · next hadm =>
        cases h
        exact .inr ⟨p, hp, value, hvalue, by simpa using hadm, rfl⟩
  · intro h
    rcases h with ⟨p, hp, hopt, hnone, rfl⟩ | ⟨p, hp, value, hvalue, hadm, rfl⟩
    · exact ⟨p, hp, by simp [hnone, hopt]⟩
    · exact ⟨p, hp, by simp [hvalue, hadm]⟩

theorem propertyFaults_eq_nil_iff : c.propertyFaults n = [] ↔
    (∀ p ∈ c.properties, p.isOptional = false → (n.property? p.name).isSome = true) ∧
    (∀ p ∈ c.properties, ∀ value, n.property? p.name = some value →
      p.literal.admits value = true) ∧
    ∀ key ∈ Entries.keys n.properties, ∃ p ∈ c.properties, p.name = key := by
  simp only [List.eq_nil_iff_forall_not_mem, mem_propertyFaults_iff, not_or]
  constructor
  · intro h
    refine ⟨fun p hp hopt => ?_, fun p hp value hvalue => ?_, fun key hkey => ?_⟩
    · cases hnone : n.property? p.name with
      | none => exact absurd ⟨p, hp, hopt, hnone, rfl⟩ (h (.propertyMissing p.name)).1
      | some value => rfl
    · cases hadm : p.literal.admits value with
      | false => exact absurd ⟨p, hp, value, hvalue, hadm, rfl⟩ (h (.valueRefused ..)).2.1
      | true => rfl
    · refine Classical.byContradiction fun hnot => ?_
      refine (h (.propertyUndeclared key)).2.2 ⟨key, hkey, fun p hp hname => ?_, rfl⟩
      exact hnot ⟨p, hp, hname⟩
  · intro h cause
    obtain ⟨hpresent, hvalues, hdeclared⟩ := h
    refine ⟨?_, ?_, ?_⟩
    · intro h
      obtain ⟨p, hp, hopt, hnone, -⟩ := h
      have := hpresent p hp hopt
      rw [hnone] at this
      cases this
    · intro h
      obtain ⟨p, hp, value, hvalue, hadm, -⟩ := h
      rw [hvalues p hp value hvalue] at hadm
      cases hadm
    · intro h
      obtain ⟨key, hkey, hnot, -⟩ := h
      obtain ⟨p, hp, hname⟩ := hdeclared key hkey
      exact hnot p hp hname

end Shape

/-! ## Numbers of children -/

namespace GroupDecl

variable {group : GroupDecl} {count : Nat} {cause : Fault.Cause}

theorem mem_countFaults_iff : cause ∈ group.countFaults count ↔
    (∃ missing, 0 < missing ∧ count + missing = group.bounds.min ∧
      cause = .groupShort group.name missing) ∨
    ∃ max, group.bounds.max = some max ∧ max < count ∧
      cause = .groupOverfull group.name max count := by
  have hshort : cause ∈ (if 0 < group.bounds.shortfall count then
        [Fault.Cause.groupShort group.name (group.bounds.shortfall count)] else []) ↔
      ∃ missing, 0 < missing ∧ count + missing = group.bounds.min ∧
        cause = .groupShort group.name missing := by
    rw [Bounds.shortfall]
    split
    · next hpos =>
      rw [List.mem_singleton]
      constructor
      · rintro rfl
        exact ⟨_, hpos, by omega, rfl⟩
      · intro h
        obtain ⟨missing, -, hsum, rfl⟩ := h
        rw [show group.bounds.min - count = missing by omega]
    · next hpos =>
      simp only [List.not_mem_nil, false_iff, not_exists, not_and]
      intro missing hmissing hsum
      omega
  rw [countFaults, List.mem_append, hshort]
  refine or_congr_right ?_
  cases hmax : group.bounds.max with
  | none => simp
  | some max =>
    by_cases hlt : max < count
    · simp [hlt]
    · simp [hlt]

theorem countFaults_eq_nil_iff :
    group.countFaults count = [] ↔ group.bounds.allows count = true := by
  rw [Bounds.allows_iff, List.eq_nil_iff_forall_not_mem]
  simp only [mem_countFaults_iff, not_or]
  constructor
  · intro h
    refine ⟨Nat.le_of_not_lt fun hlt => ?_, fun max hmax => Nat.le_of_not_lt fun hlt => ?_⟩
    · exact (h (.groupShort group.name (group.bounds.min - count))).1
        ⟨_, by omega, by omega, rfl⟩
    · exact (h (.groupOverfull group.name max count)).2 ⟨max, hmax, hlt, rfl⟩
  · intro h cause
    obtain ⟨hmin, hmax⟩ := h
    refine ⟨?_, ?_⟩
    · intro h
      obtain ⟨missing, hpos, hsum, -⟩ := h
      omega
    · intro h
      obtain ⟨max, hm, hlt, -⟩ := h
      have := hmax max hm
      omega

end GroupDecl

/-! ## The equation of the walk -/

section
variable {α β : Type} {as : List α} {f : α × Nat → List β}

theorem mem_flatMap_zipIdx_iff {b : β} :
    b ∈ as.zipIdx.flatMap f ↔ ∃ i a, as[i]? = some a ∧ b ∈ f (a, i) := by
  rw [List.mem_flatMap]
  constructor
  · intro h
    obtain ⟨⟨a, i⟩, h, hb⟩ := h
    exact ⟨i, a, List.mem_zipIdx_iff_getElem?.1 h, hb⟩
  · intro h
    obtain ⟨i, a, h, hb⟩ := h
    exact ⟨(a, i), List.mem_zipIdx_iff_getElem?.2 h, hb⟩

theorem flatMap_zipIdx_eq_nil_iff :
    as.zipIdx.flatMap f = [] ↔ ∀ i a, as[i]? = some a → f (a, i) = [] := by
  rw [List.flatMap_eq_nil_iff]
  constructor
  · exact fun h i a hi => h (a, i) (List.mem_zipIdx_iff_getElem?.2 hi)
  · exact fun h e he => h e.2 e.1 (List.mem_zipIdx_iff_getElem?.1 he)

end

namespace Node

variable (g : Grammar)

/-- What is reported about a child in a declared group, given the child's location. -/
def faultsIn (group : GroupDecl) (child : Node) (l : Location) : List Fault :=
  if g.admits group child.name then child.faults g l
  else [⟨l, .childRefused group.name child.name⟩]

/-- What is reported about a declared group of a node. -/
def groupFaults (l : Location) (n : Node) (group : GroupDecl) : List Fault :=
  (group.countFaults (n.childrenOf group.name).length).map (⟨l, ·⟩) ++
  (n.childrenOf group.name).zipIdx.flatMap fun e =>
    e.1.faultsIn g group (l.child group.name e.2)

/-- What is reported about a group that is not declared. -/
def strayFaults (l : Location) (name : String) (children : List Node) : List Fault :=
  ⟨l, .groupUndeclared name⟩ ::
  children.zipIdx.flatMap fun e => e.1.faults g (l.child name e.2)

variable {g} {n : Node}

theorem faults_of_undefined (h : g.defines n.name = false) (l : Location) :
    n.faults g l = [⟨l, .undefinedType n.name⟩] := by
  rw [faults_eq, h]
  rfl

theorem faults_of_shapeOf?_eq_none (hd : g.defines n.name = true) (h : g.shapeOf? n = none)
    (l : Location) : n.faults g l = [⟨l, .noShapeFits n.name (g.standsFor n.name)⟩] := by
  rw [faults_eq, hd, h]
  rfl

theorem faults_of_shapeOf? {c : Shape} (h : g.shapeOf? n = some c) (l : Location) :
    n.faults g l = (c.propertyFaults n).map (⟨l, ·⟩) ++ c.groups.flatMap (groupFaults g l n) ++
      n.groups.flatMap fun e => if (c.group? e.1).isSome then [] else strayFaults g l e.1 e.2 := by
  rw [faults_eq, Grammar.defines_of_shapeOf? h, h, if_pos rfl]
  dsimp only
  rw [faultsAgainst]
  congr 1
  · congr 1
    refine congrArg (List.flatMap · c.groups) (funext fun group => ?_)
    rw [inspected_childrenOf, declaredFaults, groupFaults, List.length_map, List.zipIdx_map,
      List.flatMap_map]
    rfl
  · rw [inspectedGroups, List.flatMap_map]
    refine congrArg (List.flatMap · n.groups) (funext fun e => ?_)
    simp only [undeclaredFaults, strayFaults, List.zipIdx_map, List.flatMap_map]
    rfl

end Node
end BlockEdit
