/-
The list of faults is exact: it has a fault just when a rule says so at a
place that the walk comes to.

The walk goes from a node to a child if the shape of the node declares no
group of the child's, or declares one that admits it (`Grammar.Enters`);
what it comes to in this way it visits (`Grammar.Visits`). At a node that is
visited there is one rule for each kind of fault (`Grammar.FaultAt`), and a
fault says in full what its rule is about: which number is wanting, which
value was refused, what was tried.

`Node.mem_faults_iff` is the statement for a subtree, by induction on the
node. One level of it, `mem_faults_iff_step`, is where the rules meet the
walk; it needs that no group is named twice, which holds in a tree.
-/
import BlockEdit.Proofs.Inspection.NodeFaults

namespace BlockEdit
namespace Grammar

/-- The walk goes on from a node to a child. -/
def Enters (g : Grammar) (n : Node) (s : Step) (child : Node) : Prop :=
  n.child? s = some child ∧ ∃ c, g.shapeOf? n = some c ∧
    ((∀ d ∈ c.groups, d.name ≠ s.group) ∨
      ∃ d ∈ c.groups, d.name = s.group ∧ g.admits d child.name = true)

/-- The walk from `top`, which stands at `start`, comes to a node at a location. -/
inductive Visits (g : Grammar) (top : Node) (start : Location) : Location → Node → Prop where
  | top : Visits g top start start top
  | child {l : Location} {n child : Node} {s : Step} (above : Visits g top start l n)
      (enters : g.Enters n s child) : Visits g top start (l.child s.group s.index) child

/-- The faults of a node that stands at `l`, apart from those of its children. -/
inductive FaultAt (g : Grammar) (n : Node) (l : Location) : Fault → Prop where
  | undefinedType (undefined : g.get? n.name = none) : FaultAt g n l ⟨l, .undefinedType n.name⟩
  | noShapeFits {members : List TypeName} (alternative : g.get? n.name = some (.oneOf members))
      (misfit : ∀ a ∈ g.standsFor n.name, ∀ c, g.shape? a = some c → ¬ c.Declares n) :
      FaultAt g n l ⟨l, .noShapeFits n.name (g.standsFor n.name)⟩
  | propertyMissing {c : Shape} {p : Property} (shape : g.shapeOf? n = some c)
      (declared : p ∈ c.properties) (mandatory : p.isOptional = false)
      (absent : n.property? p.name = none) : FaultAt g n l ⟨l, .propertyMissing p.name⟩
  | valueRefused {c : Shape} {p : Property} {value : String} (shape : g.shapeOf? n = some c)
      (declared : p ∈ c.properties) (present : n.property? p.name = some value)
      (refused : p.literal.admits value = false) :
      FaultAt g n l ⟨l, .valueRefused p.name p.literal value⟩
  | propertyUndeclared {c : Shape} {key : String} (shape : g.shapeOf? n = some c)
      (present : key ∈ Entries.keys n.properties) (undeclared : ∀ p ∈ c.properties, p.name ≠ key) :
      FaultAt g n l ⟨l, .propertyUndeclared key⟩
  | groupShort {c : Shape} {d : GroupDecl} {missing : Nat} (shape : g.shapeOf? n = some c)
      (declared : d ∈ c.groups) (wanting : 0 < missing)
      (count : (n.childrenOf d.name).length + missing = d.bounds.min) :
      FaultAt g n l ⟨l, .groupShort d.name missing⟩
  | groupOverfull {c : Shape} {d : GroupDecl} {max : Nat} (shape : g.shapeOf? n = some c)
      (declared : d ∈ c.groups) (bound : d.bounds.max = some max)
      (count : max < (n.childrenOf d.name).length) :
      FaultAt g n l ⟨l, .groupOverfull d.name max (n.childrenOf d.name).length⟩
  | childRefused {c : Shape} {d : GroupDecl} {i : Nat} {child : Node}
      (shape : g.shapeOf? n = some c) (declared : d ∈ c.groups)
      (present : n.child? ⟨d.name, i⟩ = some child) (refused : g.admits d child.name = false) :
      FaultAt g n l ⟨l.child d.name i, .childRefused d.name child.name⟩
  | groupUndeclared {c : Shape} {name : String} (shape : g.shapeOf? n = some c)
      (present : n.hasGroup name = true) (undeclared : ∀ d ∈ c.groups, d.name ≠ name) :
      FaultAt g n l ⟨l, .groupUndeclared name⟩

variable {g : Grammar} {top n m : Node} {start l : Location} {f : Fault}

/-! ## The walk, from its first step -/

/-- What is visited is the top, or is visited from a child that is entered. -/
theorem visits_iff : g.Visits top start l n ↔ (l = start ∧ n = top) ∨
    ∃ s child, g.Enters top s child ∧ g.Visits child (start.child s.group s.index) l n := by
  constructor
  · intro h
    induction h with
    | top => exact .inl ⟨rfl, rfl⟩
    | child above enters ih =>
      right
      rcases ih with ⟨rfl, rfl⟩ | ⟨s, child, hs, hv⟩
      · exact ⟨_, _, enters, .top⟩
      · exact ⟨s, child, hs, hv.child enters⟩
  · intro h
    rcases h with ⟨rfl, rfl⟩ | ⟨s, child, hs, hv⟩
    · exact .top
    · induction hv with
      | top => exact .child .top hs
      | child above enters ih => exact ih.child enters

/-- A location that is visited leads to the node that is visited there. -/
theorem Visits.at? (h : g.Visits top start l n) :
    ∃ path, l = start.along path ∧ top.at? path = some n := by
  induction h with
  | top => exact ⟨[], start.along_nil.symm, rfl⟩
  | @child l n c s above enters ih =>
    obtain ⟨path, rfl, hn⟩ := ih
    refine ⟨path ++ [s], start.along_along path [s], ?_⟩
    rw [Node.at?_append, hn, Option.bind_some, Node.at?_singleton]
    exact enters.1

/-- The walk does not come back to where it started. -/
theorem Visits.eq_top (h : g.Visits top start start n) : n = top := by
  obtain ⟨path, hl, hn⟩ := h.at?
  have hnil : path = [] := start.along_injective (hl.symm.trans start.along_nil.symm)
  subst hnil
  exact (Option.some.inj hn).symm

end Grammar

/-! ## Rules and reports at one node -/

namespace Node

open Grammar (Enters FaultAt Visits)

variable {g : Grammar} {n : Node} {l : Location} {f : Fault}

theorem mem_groupFaults_iff {d : GroupDecl} : f ∈ groupFaults g l n d ↔
    (∃ cause ∈ d.countFaults (n.childrenOf d.name).length, f = ⟨l, cause⟩) ∨
    ∃ i child, n.child? ⟨d.name, i⟩ = some child ∧ f ∈ child.faultsIn g d (l.child d.name i) := by
  rw [groupFaults, List.mem_append, List.mem_map, mem_flatMap_zipIdx_iff]
  exact or_congr_left (exists_congr fun cause => and_congr_right fun _ => eq_comm)

theorem mem_faultsIn_iff {d : GroupDecl} {child : Node} : f ∈ child.faultsIn g d l ↔
    (g.admits d child.name = true ∧ f ∈ child.faults g l) ∨
    (g.admits d child.name = false ∧ f = ⟨l, .childRefused d.name child.name⟩) := by
  unfold faultsIn
  cases g.admits d child.name with
  | false => simp
  | true => simp

theorem mem_strayFaults_iff {name : String} (wf : n.WellFormed) {children : List Node}
    (h : (name, children) ∈ n.groups) : f ∈ strayFaults g l name children ↔
    f = ⟨l, .groupUndeclared name⟩ ∨
    ∃ i child, n.child? ⟨name, i⟩ = some child ∧ f ∈ child.faults g (l.child name i) := by
  have hchildren : n.childrenOf name = children := by
    rw [childrenOf, Entries.get?_of_mem wf.groups h, Option.getD_some]
  rw [strayFaults, List.mem_cons, mem_flatMap_zipIdx_iff, ← hchildren]
  rfl

/-- The three parts of the report of a node that has a shape. -/
theorem mem_faults_iff_of_shapeOf? {c : Shape} (hs : g.shapeOf? n = some c) :
    f ∈ n.faults g l ↔ (∃ cause ∈ c.propertyFaults n, f = ⟨l, cause⟩) ∨
      (∃ d ∈ c.groups, f ∈ groupFaults g l n d) ∨
      ∃ e ∈ n.groups, (∀ d ∈ c.groups, d.name ≠ e.1) ∧ f ∈ strayFaults g l e.1 e.2 := by
  have hstray : ∀ e : String × List Node,
      f ∈ (if (c.group? e.1).isSome then [] else strayFaults g l e.1 e.2) ↔
        (∀ d ∈ c.groups, d.name ≠ e.1) ∧ f ∈ strayFaults g l e.1 e.2 := by
    intro e
    rw [← Shape.group?_eq_none_iff]
    cases c.group? e.1 with
    | none => simp
    | some d => simp
  simp only [faults_of_shapeOf? hs, List.mem_append, List.mem_map, List.mem_flatMap, hstray,
    or_assoc, @eq_comm _ _ f]

theorem faultAt_of_mem_propertyFaults {c : Shape} {cause : Fault.Cause} (hs : g.shapeOf? n = some c)
    (h : cause ∈ c.propertyFaults n) : FaultAt g n l ⟨l, cause⟩ := by
  rcases Shape.mem_propertyFaults_iff.1 h with
    ⟨p, hp, hopt, hnone, rfl⟩ | ⟨p, hp, value, hvalue, hadm, rfl⟩ | ⟨key, hkey, hnot, rfl⟩
  · exact .propertyMissing hs hp hopt hnone
  · exact .valueRefused hs hp hvalue hadm
  · exact .propertyUndeclared hs hkey hnot

theorem faultAt_or_enters_of_mem_groupFaults {c : Shape} {d : GroupDecl}
    (hs : g.shapeOf? n = some c) (hd : d ∈ c.groups) (h : f ∈ groupFaults g l n d) :
    FaultAt g n l f ∨
      ∃ s child, Enters g n s child ∧ f ∈ child.faults g (l.child s.group s.index) := by
  rcases mem_groupFaults_iff.1 h with ⟨cause, hc, rfl⟩ | ⟨i, child, hchild, h⟩
  · left
    rcases GroupDecl.mem_countFaults_iff.1 hc with
      ⟨missing, hpos, hsum, rfl⟩ | ⟨max, hmax, hlt, rfl⟩
    · exact .groupShort hs hd hpos hsum
    · exact .groupOverfull hs hd hmax hlt
  · rcases mem_faultsIn_iff.1 h with ⟨hadm, h⟩ | ⟨hadm, rfl⟩
    · exact .inr ⟨⟨d.name, i⟩, child, ⟨hchild, c, hs, .inr ⟨d, hd, rfl, hadm⟩⟩, h⟩
    · exact .inl (.childRefused hs hd hchild hadm)

theorem faultAt_or_enters_of_mem_strayFaults {c : Shape} {e : String × List Node}
    (wf : n.WellFormed) (hs : g.shapeOf? n = some c) (he : e ∈ n.groups)
    (hnot : ∀ d ∈ c.groups, d.name ≠ e.1) (h : f ∈ strayFaults g l e.1 e.2) :
    FaultAt g n l f ∨
      ∃ s child, Enters g n s child ∧ f ∈ child.faults g (l.child s.group s.index) := by
  rcases (mem_strayFaults_iff wf he).1 h with rfl | ⟨i, child, hchild, h⟩
  · have hgroup : n.hasGroup e.1 = true := Entries.has_iff.2 (List.mem_map.2 ⟨e, he, rfl⟩)
    exact .inl (.groupUndeclared hs hgroup hnot)
  · exact .inr ⟨⟨e.1, i⟩, child, ⟨hchild, c, hs, .inl hnot⟩, h⟩

/-- A report of a node is one of its own by some rule, or one of a child that the walk
enters. -/
theorem faultAt_or_enters_of_mem_faults (wf : n.WellFormed) (h : f ∈ n.faults g l) :
    FaultAt g n l f ∨
      ∃ s child, Enters g n s child ∧ f ∈ child.faults g (l.child s.group s.index) := by
  cases hd : g.defines n.name with
  | false =>
    rw [faults_of_undefined hd, List.mem_singleton] at h
    exact .inl (h ▸ .undefinedType (by simpa [Grammar.defines] using hd))
  | true =>
  cases hs : g.shapeOf? n with
  | none =>
    rw [faults_of_shapeOf?_eq_none hd hs, List.mem_singleton] at h
    obtain ⟨⟨members, hg⟩, hall⟩ := (Grammar.shapeOf?_eq_none_iff hd).1 hs
    exact .inl (h ▸ .noShapeFits hg hall)
  | some c =>
    rcases (mem_faults_iff_of_shapeOf? hs).1 h with ⟨cause, hc, rfl⟩ | ⟨d, hd, h⟩ | ⟨e, he, hnot, h⟩
    · exact .inl (faultAt_of_mem_propertyFaults hs hc)
    · exact faultAt_or_enters_of_mem_groupFaults hs hd h
    · exact faultAt_or_enters_of_mem_strayFaults wf hs he hnot h

/-- What a rule says of a node is reported. -/
theorem mem_faults_of_faultAt (wf : n.WellFormed) (h : FaultAt g n l f) : f ∈ n.faults g l := by
  have own {c : Shape} {cause : Fault.Cause} (hs : g.shapeOf? n = some c)
      (hc : cause ∈ c.propertyFaults n) : ⟨l, cause⟩ ∈ n.faults g l :=
    (mem_faults_iff_of_shapeOf? hs).2 (.inl ⟨cause, hc, rfl⟩)
  have inGroup {c : Shape} {d : GroupDecl} (hs : g.shapeOf? n = some c) (hd : d ∈ c.groups)
      (hf : f ∈ groupFaults g l n d) : f ∈ n.faults g l :=
    (mem_faults_iff_of_shapeOf? hs).2 (.inr (.inl ⟨d, hd, hf⟩))
  cases h with
  | undefinedType h =>
    rw [faults_of_undefined (by rw [Grammar.defines, h]; rfl)]
    exact List.mem_singleton_self _
  | noShapeFits hg hall =>
    have hd : g.defines n.name = true := by rw [Grammar.defines, hg]; rfl
    rw [faults_of_shapeOf?_eq_none hd ((Grammar.shapeOf?_eq_none_iff hd).2 ⟨⟨_, hg⟩, hall⟩)]
    exact List.mem_singleton_self _
  | propertyMissing hs hp hopt hnone =>
    exact own hs (Shape.mem_propertyFaults_iff.2 (.inl ⟨_, hp, hopt, hnone, rfl⟩))
  | valueRefused hs hp hvalue hadm =>
    exact own hs (Shape.mem_propertyFaults_iff.2 (.inr (.inl ⟨_, hp, _, hvalue, hadm, rfl⟩)))
  | propertyUndeclared hs hkey hnot =>
    exact own hs (Shape.mem_propertyFaults_iff.2 (.inr (.inr ⟨_, hkey, hnot, rfl⟩)))
  | groupShort hs hd hpos hsum =>
    refine inGroup hs hd (mem_groupFaults_iff.2 (.inl ⟨_, ?_, rfl⟩))
    exact GroupDecl.mem_countFaults_iff.2 (.inl ⟨_, hpos, hsum, rfl⟩)
  | groupOverfull hs hd hmax hlt =>
    refine inGroup hs hd (mem_groupFaults_iff.2 (.inl ⟨_, ?_, rfl⟩))
    exact GroupDecl.mem_countFaults_iff.2 (.inr ⟨_, hmax, hlt, rfl⟩)
  | childRefused hs hd hchild hadm =>
    refine inGroup hs hd (mem_groupFaults_iff.2 (.inr ⟨_, _, hchild, ?_⟩))
    exact mem_faultsIn_iff.2 (.inr ⟨hadm, rfl⟩)
  | groupUndeclared hs hgroup hnot =>
    obtain ⟨e, he, rfl⟩ := List.mem_map.1 (Entries.has_iff.1 hgroup)
    have hstray : ⟨l, .groupUndeclared e.1⟩ ∈ strayFaults g l e.1 e.2 :=
      (mem_strayFaults_iff wf he).2 (.inl rfl)
    exact (mem_faults_iff_of_shapeOf? hs).2 (.inr (.inr ⟨e, he, hnot, hstray⟩))

/-- What is reported of a child that the walk enters is reported of the node. -/
theorem mem_faults_of_enters (wf : n.WellFormed) {s : Step} {child : Node} (h : Enters g n s child)
    (hf : f ∈ child.faults g (l.child s.group s.index)) : f ∈ n.faults g l := by
  obtain ⟨hchild, c, hs, hnot | ⟨d, hd, hname, hadm⟩⟩ := h
  · obtain ⟨e, he, hkey⟩ := List.mem_map.1 (Entries.has_iff.1 (hasGroup_of_child? hchild))
    have hstray : f ∈ strayFaults g l e.1 e.2 :=
      (mem_strayFaults_iff wf he).2 (.inr ⟨s.index, child, hkey ▸ hchild, hkey ▸ hf⟩)
    exact (mem_faults_iff_of_shapeOf? hs).2 (.inr (.inr ⟨e, he, hkey ▸ hnot, hstray⟩))
  · have hgroup : f ∈ groupFaults g l n d := mem_groupFaults_iff.2
      (.inr ⟨s.index, child, hname ▸ hchild, mem_faultsIn_iff.2 (.inl ⟨hadm, hname ▸ hf⟩)⟩)
    exact (mem_faults_iff_of_shapeOf? hs).2 (.inr (.inl ⟨d, hd, hgroup⟩))

theorem mem_faults_iff_step (wf : n.WellFormed) : f ∈ n.faults g l ↔ FaultAt g n l f ∨
    ∃ s child, Enters g n s child ∧ f ∈ child.faults g (l.child s.group s.index) := by
  constructor
  · exact faultAt_or_enters_of_mem_faults wf
  · intro h
    rcases h with h | ⟨s, child, hs, hf⟩
    · exact mem_faults_of_faultAt wf h
    · exact mem_faults_of_enters wf hs hf

/-- The faults of a subtree are those of the nodes that the walk through it visits. -/
theorem mem_faults_iff (wf : n.WellFormed) : f ∈ n.faults g l ↔
    ∃ m visited, Visits g n l m visited ∧ FaultAt g visited m f := by
  induction n using induct_childrenOf generalizing l with
  | step n ih =>
    rw [mem_faults_iff_step wf]
    constructor
    · intro h
      rcases h with h | ⟨s, child, hs, hf⟩
      · exact ⟨l, n, .top, h⟩
      · have hmem : child ∈ n.childrenOf s.group := List.mem_of_getElem? hs.1
        obtain ⟨m, visited, hv, hf⟩ := (ih s.group child hmem (wf.childrenOf hmem)).1 hf
        exact ⟨m, visited, Grammar.visits_iff.2 (.inr ⟨s, child, hs, hv⟩), hf⟩
    · intro h
      obtain ⟨m, visited, hv, hf⟩ := h
      rcases Grammar.visits_iff.1 hv with ⟨rfl, rfl⟩ | ⟨s, child, hs, hv⟩
      · exact .inl hf
      · have hmem : child ∈ n.childrenOf s.group := List.mem_of_getElem? hs.1
        have hchild := (ih s.group child hmem (wf.childrenOf hmem)).2 ⟨m, visited, hv, hf⟩
        exact .inr ⟨s, child, hs, hchild⟩

/-- That a group has too many children is reported of the node that has the group. -/
theorem overfull_of_mem_faults {c : Shape} {group : String} {max present : Nat} (wf : n.WellFormed)
    (hc : g.shapeOf? n = some c) (h : ⟨l, .groupOverfull group max present⟩ ∈ n.faults g l) :
    ∃ d ∈ c.groups, d.name = group ∧ d.bounds.max = some max ∧
      max < (n.childrenOf d.name).length := by
  obtain ⟨l', m, hv, hf⟩ := (mem_faults_iff wf).1 h
  cases hf with
  | groupOverfull shape declared bound count =>
    have htop := hv.eq_top
    subst htop
    rw [hc] at shape
    cases shape
    exact ⟨_, declared, rfl, bound, count⟩

/-- That a child is refused is reported of the child by its parent. -/
theorem refused_of_mem_faults {c : Shape} {group name : String} {i : Nat} {type : TypeName}
    (wf : n.WellFormed) (hc : g.shapeOf? n = some c)
    (h : ⟨l.child group i, .childRefused name type⟩ ∈ n.faults g l) :
    ∃ d ∈ c.groups, d.name = group ∧ ∃ child, n.child? ⟨group, i⟩ = some child ∧
      g.admits d child.name = false := by
  obtain ⟨l', m, hv, hf⟩ := (mem_faults_iff wf).1 h
  generalize hfault : (⟨l.child group i, .childRefused name type⟩ : Fault) = f at hf
  cases hf with
  | childRefused shape declared present refused =>
    obtain ⟨rfl, rfl, rfl⟩ := Location.child_inj (Fault.mk.inj hfault).1
    have htop := hv.eq_top
    subst htop
    rw [hc] at shape
    cases shape
    exact ⟨_, declared, rfl, _, present, refused⟩
  | _ => cases (Fault.mk.inj hfault).2

end Node

/-! ## The whole tree -/

namespace Tree

/-- The inspection of a tree comes to a node at a location. -/
def Reaches (t : Tree) (g : Grammar) (l : Location) (n : Node) : Prop :=
  ∃ root, t.root = some root ∧ g.Visits root .root l n

/-- The tree and the grammar disagree: its root has a type that is not wanted there, or a
rule applies to a node that is reached. -/
inductive Disagrees (t : Tree) (g : Grammar) : Fault → Prop where
  | root {root : Node} {expected : TypeName} (present : t.root = some root)
      (wanted : g.root = some expected) (refused : g.covers expected root.name = false) :
      Disagrees t g ⟨.root, .rootRefused expected root.name⟩
  | node {l : Location} {n : Node} {f : Fault} (reached : t.Reaches g l n)
      (rule : g.FaultAt n l f) : Disagrees t g f

variable {t : Tree} {g : Grammar} {l : Location} {n : Node}

/-- What is reached at a location is the node that the location leads to. -/
theorem Reaches.nodeAt? (h : t.Reaches g l n) : t.nodeAt? l = some n := by
  obtain ⟨root, hr, hv⟩ := h
  obtain ⟨path, rfl, hn⟩ := hv.at?
  simpa [Tree.nodeAt?, hr, Location.along, Location.root] using hn

theorem mem_rootFaults_iff {root : Node} {f : Fault} : f ∈ rootFaults g root ↔
    ∃ expected, g.root = some expected ∧ g.covers expected root.name = false ∧
      f = ⟨.root, .rootRefused expected root.name⟩ := by
  unfold rootFaults
  cases g.root with
  | none => simp
  | some expected =>
    cases hc : g.covers expected root.name with
    | false => simp [hc]
    | true => simp [hc]

/-- What is reported is what the tree and the grammar disagree in. -/
theorem mem_faults_iff {f : Fault} : f ∈ t.faults g ↔ t.Disagrees g f := by
  rw [faults]
  cases hr : t.root with
  | none =>
    simp only [List.not_mem_nil, false_iff]
    intro h
    rcases h with ⟨present, -, -⟩ | ⟨⟨root, present, -⟩, -⟩
    · rw [hr] at present; cases present
    · rw [hr] at present; cases present
  | some root =>
    have wf := t.wellFormed root (by rw [hr]; rfl)
    rw [List.mem_append, mem_rootFaults_iff, Node.mem_faults_iff wf]
    constructor
    · intro h
      rcases h with ⟨expected, hg, hc, rfl⟩ | ⟨l, n, hv, hf⟩
      · exact .root hr hg hc
      · exact .node ⟨root, hr, hv⟩ hf
    · intro h
      rcases h with ⟨present, wanted, refused⟩ | ⟨⟨root', present, hv⟩, rule⟩
      · rw [hr] at present
        cases present
        exact .inl ⟨_, wanted, refused, rfl⟩
      · rw [hr] at present
        cases present
        exact .inr ⟨_, _, hv, rule⟩

/-- **The report of an inspection is exact.** A fault, with its location, kind and
details, is reported of a tree just when the tree disagrees with the grammar in that way:
nothing else is reported, and nothing that is wrong at a node that is reached is left
out. -/
theorem mem_inspect_iff (t : Tree) (g : Grammar) (f : Fault) :
    f ∈ (t.inspect g).value ↔ t.Disagrees g f :=
  mem_faults_iff

end Tree
end BlockEdit
