/-
Validity, said without a walk. A node conforms to a grammar when it agrees
with its shape in its properties, in its groups and in the number and types
of its children, and its children conform too (`Grammar.Conforms`, the least
such relation). A tree is valid just when its root conforms and has a type
that the grammar takes for a root (`Tree.isValid_iff_conforms`).

The walk can pass over a part of a tree: it ends at a child that a group
refuses, and where no shape fits. Such a part is not judged, but then the
place where the walk ended has a fault of its own, so that it does no harm.
The induction is on the node; the grammar may be circular.
-/
import BlockEdit.Proofs.Inspection.NodeFaults

namespace BlockEdit

/-- A node agrees with the shape that is found for it, here and below. -/
inductive Grammar.Conforms (g : Grammar) : Node → Prop where
  | intro {n : Node} {c : Shape} (shape : g.shapeOf? n = some c)
      (present : ∀ p ∈ c.properties, p.isOptional = false → (n.property? p.name).isSome = true)
      (literals : ∀ p ∈ c.properties, ∀ value, n.property? p.name = some value →
        p.literal.admits value = true)
      (properties : ∀ key ∈ Entries.keys n.properties, ∃ p ∈ c.properties, p.name = key)
      (counts : ∀ group ∈ c.groups, group.bounds.min ≤ (n.childrenOf group.name).length ∧
        ∀ max ∈ group.bounds.max, (n.childrenOf group.name).length ≤ max)
      (admitted : ∀ group ∈ c.groups, ∀ child ∈ n.childrenOf group.name,
        g.admits group child.name = true)
      (nested : ∀ group ∈ c.groups, ∀ child ∈ n.childrenOf group.name, Conforms g child)
      (groups : ∀ name ∈ Entries.keys n.groups, ∃ d ∈ c.groups, d.name = name) : Conforms g n

namespace Node

variable {g : Grammar} {n : Node} {l : Location}

theorem faultsIn_eq_nil_iff {group : GroupDecl} :
    n.faultsIn g group l = [] ↔ g.admits group n.name = true ∧ n.faults g l = [] := by
  unfold faultsIn
  split
  · next h => simp [h]
  · next h => simp [h]

theorem groupFaults_eq_nil_iff {group : GroupDecl} : groupFaults g l n group = [] ↔
    group.bounds.allows (n.childrenOf group.name).length = true ∧
      ∀ i (child : Node), (n.childrenOf group.name)[i]? = some child →
        g.admits group child.name = true ∧ child.faults g (l.child group.name i) = [] := by
  simp only [groupFaults, List.append_eq_nil_iff, List.map_eq_nil_iff,
    GroupDecl.countFaults_eq_nil_iff, flatMap_zipIdx_eq_nil_iff, faultsIn_eq_nil_iff]

/-- A node without faults has a shape, and has nothing but what the shape admits. -/
theorem faults_eq_nil_iff_step : n.faults g l = [] ↔ ∃ c, g.shapeOf? n = some c ∧
    c.propertyFaults n = [] ∧ (∀ group ∈ c.groups, groupFaults g l n group = []) ∧
      ∀ name ∈ Entries.keys n.groups, ∃ d ∈ c.groups, d.name = name := by
  cases hd : g.defines n.name with
  | false =>
    have hnone : ∀ c, g.shapeOf? n ≠ some c := by
      intro c hc
      rw [Grammar.defines_of_shapeOf? hc] at hd
      cases hd
    simp [faults_of_undefined hd, hnone]
  | true =>
    cases hs : g.shapeOf? n with
    | none => simp [faults_of_shapeOf?_eq_none hd hs]
    | some c =>
      rw [faults_of_shapeOf? hs]
      have hstray : (n.groups.flatMap fun e =>
            if (c.group? e.1).isSome then [] else strayFaults g l e.1 e.2) = [] ↔
          ∀ name ∈ Entries.keys n.groups, ∃ d ∈ c.groups, d.name = name := by
        simp only [List.flatMap_eq_nil_iff, Entries.keys, List.forall_mem_map,
          ← Shape.group?_isSome_iff]
        refine forall₂_congr fun e _ => ?_
        by_cases h : (c.group? e.1).isSome = true
        · simp [h]
        · simp [h, strayFaults]
      simp only [List.append_eq_nil_iff, List.map_eq_nil_iff, hstray, List.flatMap_eq_nil_iff,
        Option.some.injEq, exists_eq_left', and_assoc]

theorem faults_eq_nil_iff : n.faults g l = [] ↔ g.Conforms n := by
  induction n using induct_childrenOf generalizing l with
  | step n ih =>
    rw [faults_eq_nil_iff_step]
    constructor
    · intro h
      obtain ⟨c, hc, hproperties, hchildren, hgroups⟩ := h
      obtain ⟨hpresent, hliterals, hdeclared⟩ := Shape.propertyFaults_eq_nil_iff.1 hproperties
      simp only [groupFaults_eq_nil_iff] at hchildren
      have hchild : ∀ group ∈ c.groups, ∀ child ∈ n.childrenOf group.name,
          g.admits group child.name = true ∧ g.Conforms child := by
        intro group hgroup child hmem
        obtain ⟨i, hi⟩ := List.mem_iff_getElem?.1 hmem
        obtain ⟨hadmits, hnil⟩ := (hchildren group hgroup).2 i child hi
        exact ⟨hadmits, (ih _ child hmem).1 hnil⟩
      exact .intro hc hpresent hliterals hdeclared
        (fun group hgroup => Bounds.allows_iff.1 (hchildren group hgroup).1)
        (fun group hgroup child hmem => (hchild group hgroup child hmem).1)
        (fun group hgroup child hmem => (hchild group hgroup child hmem).2) hgroups
    · intro h
      obtain ⟨hc, hpresent, hliterals, hdeclared, hcounts, hadmitted, hnested, hgroups⟩ := h
      refine ⟨_, hc, Shape.propertyFaults_eq_nil_iff.2 ⟨hpresent, hliterals, hdeclared⟩, ?_,
        hgroups⟩
      intro group hgroup
      refine groupFaults_eq_nil_iff.2 ⟨Bounds.allows_iff.2 (hcounts group hgroup), ?_⟩
      intro i child hi
      have hmem := List.mem_of_getElem? hi
      exact ⟨hadmitted group hgroup child hmem,
        (ih _ child hmem).2 (hnested group hgroup child hmem)⟩

end Node

namespace Grammar.Conforms

variable {g : Grammar} {n m : Node}

theorem child? {s : Step} (h : g.Conforms n) (hm : n.child? s = some m) : g.Conforms m := by
  obtain ⟨-, -, -, -, -, -, hnested, hgroups⟩ := h
  obtain ⟨d, hd, hname⟩ := hgroups s.group (Entries.has_iff.1 (Node.hasGroup_of_child? hm))
  exact hnested d hd m (hname ▸ List.mem_of_getElem? hm)

/-- All of a conforming node conforms. -/
theorem at? {path : List Step} (h : g.Conforms n) (hm : n.at? path = some m) : g.Conforms m := by
  induction path generalizing n with
  | nil => cases hm; exact h
  | cons s path ih =>
    obtain ⟨c, hc, hm⟩ := Option.bind_eq_some_iff.1 hm
    exact ih (h.child? hc) hm

end Grammar.Conforms

namespace Tree

variable (t : Tree) (g : Grammar)

theorem rootFaults_eq_nil_iff (root : Node) : rootFaults g root = [] ↔
    ∀ expected, g.root = some expected → g.covers expected root.name = true := by
  unfold rootFaults
  cases g.root with
  | none => simp
  | some expected => simp

theorem isValid_iff : t.isValid g = true ↔
    ∀ root, t.root = some root → rootFaults g root = [] ∧ g.Conforms root := by
  rw [isValid, List.isEmpty_iff, faults]
  cases t.root with
  | none => simp
  | some root => simp [Node.faults_eq_nil_iff]

theorem conforms_of_nodeAt? {t : Tree} {g : Grammar} {l : Location} {n : Node}
    (h : t.isValid g = true) (hn : t.nodeAt? l = some n) : g.Conforms n := by
  obtain ⟨root, hr, hn⟩ := Option.bind_eq_some_iff.1 hn
  exact (((isValid_iff t g).1 h root hr).2).at? hn

/-- **Validity.** A tree is valid when it is empty, or when its root has a type that
the grammar takes for a root, if it lays one down, and conforms to the grammar. -/
theorem isValid_iff_conforms : t.isValid g = true ↔ t.isEmpty = true ∨
    ∃ root, t.root = some root ∧
      (∀ expected, g.root = some expected → g.covers expected root.name = true) ∧
      g.Conforms root := by
  rw [isValid_iff, isEmpty]
  cases t.root with
  | none => simp
  | some root => simp [rootFaults_eq_nil_iff]

end Tree
end BlockEdit
