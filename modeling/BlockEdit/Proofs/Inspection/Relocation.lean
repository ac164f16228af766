/-
A subtree has the same faults wherever it stands: the location of the
subtree only goes in front of the locations of its faults
(`Node.movable_faults`). The induction is on the node, and each part of the
report moves if the reports of the children do.
-/
import BlockEdit.Proofs.Inspection.NodeFaults
import Mathlib.Data.List.Basic

namespace BlockEdit

namespace Fault

/-- A fault that was found from the root on, if the root stands at `l`. -/
def below (l : Location) (f : Fault) : Fault := ⟨l.along f.location.steps, f.cause⟩

/-- A report that says the same of any place as of the root. -/
def Movable (report : Location → List Fault) : Prop :=
  ∀ l, report l = (report .root).map (·.below l)

variable (l : Location)

theorem below_child (s : Step) (f : Fault) :
    (f.below (Location.root.child s.group s.index)).below l =
      f.below (l.child s.group s.index) := by
  simp [below, Location.along, Location.child, Location.root]

theorem below_root (cause : Cause) : below l ⟨.root, cause⟩ = ⟨l, cause⟩ := by
  simp [below, Location.along, Location.root]

/-- What is said of a child of the root moves to that child of any other node. -/
theorem Movable.map_below_child {report : Location → List Fault} (h : Movable report) (s : Step) :
    (report (Location.root.child s.group s.index)).map (·.below l) =
      report (l.child s.group s.index) := by
  rw [h (Location.root.child s.group s.index), h (l.child s.group s.index), List.map_map]
  exact List.map_congr_left fun f _ => below_child l s f

end Fault

namespace Node

open Fault (Movable below_root)

variable {g : Grammar} {n : Node}

theorem movable_faultsIn {child : Node} (d : GroupDecl) (h : Movable (child.faults g)) :
    Movable (child.faultsIn g d) := by
  intro l
  unfold faultsIn
  split
  · exact h l
  · rw [List.map_singleton, below_root]

theorem movable_groupFaults {d : GroupDecl}
    (h : ∀ child ∈ n.childrenOf d.name, Movable (child.faults g)) :
    Movable fun l => groupFaults g l n d := by
  intro l
  dsimp only
  unfold groupFaults
  rw [List.map_append, List.map_map, List.map_flatMap]
  congr 1
  · exact List.map_congr_left fun cause _ => (below_root l cause).symm
  · refine List.flatMap_congr fun e he => ?_
    have hchild := movable_faultsIn d (h e.1 (List.fst_mem_of_mem_zipIdx he))
    exact (hchild.map_below_child l ⟨d.name, e.2⟩).symm

theorem movable_strayFaults {name : String} {children : List Node}
    (h : ∀ child ∈ children, Movable (child.faults g)) :
    Movable fun l => strayFaults g l name children := by
  intro l
  dsimp only
  unfold strayFaults
  rw [List.map_cons, List.map_flatMap, below_root]
  congr 1
  refine List.flatMap_congr fun e he => ?_
  exact ((h e.1 (List.fst_mem_of_mem_zipIdx he)).map_below_child l ⟨name, e.2⟩).symm

theorem movable_faults (g : Grammar) (n : Node) : Movable (n.faults g) := by
  induction n using induct with
  | step n ih =>
  intro l
  cases hd : g.defines n.name with
  | false => rw [faults_of_undefined hd, faults_of_undefined hd, List.map_singleton, below_root]
  | true =>
  cases hs : g.shapeOf? n with
  | none =>
    rw [faults_of_shapeOf?_eq_none hd hs, faults_of_shapeOf?_eq_none hd hs, List.map_singleton,
      below_root]
  | some c =>
    rw [faults_of_shapeOf? hs, faults_of_shapeOf? hs, List.map_append, List.map_append,
      List.map_map, List.map_flatMap, List.map_flatMap]
    congr 1
    · congr 1
      · exact List.map_congr_left fun cause _ => (below_root l cause).symm
      · refine List.flatMap_congr fun d _ => movable_groupFaults (fun child hc => ?_) l
        obtain ⟨cs, hcs, hc⟩ := exists_mem_groups_of_mem_childrenOf hc
        exact ih _ hcs child hc
    · refine List.flatMap_congr fun e he => ?_
      split
      · rfl
      · exact movable_strayFaults (ih e he) l

/-- The faults of a subtree are reported in it. -/
theorem contains_of_mem_faults {f : Fault} {l : Location} (h : f ∈ n.faults g l) :
    l.contains f.location = true := by
  rw [movable_faults g n l] at h
  obtain ⟨f', -, rfl⟩ := List.mem_map.1 h
  exact Location.contains_iff.2 (List.prefix_append ..)

end Node
end BlockEdit
