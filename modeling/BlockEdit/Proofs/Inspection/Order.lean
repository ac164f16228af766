/-
Inspection of trees that are the same but for the order of properties and
groups: the reports have the same faults, each as many times, though in
another order maybe (`Node.Alike.faults_perm`).

A walk follows the order of the node in two places, the properties and the
groups that are not declared. All else is read by name in the order of
declaration, and is the same for a node and the node sorted. So the proof
compares a node with the node sorted, by induction on the node.
-/
import BlockEdit.Proofs.Inspection.NodeFaults
import BlockEdit.Proofs.Tree.Order
import Mathlib.Data.List.Perm.Basic

namespace BlockEdit

open List (Perm)

theorem flatMap_zipIdx_perm {α β : Type} {as : List α} {f f' : α × Nat → List β}
    (h : ∀ a ∈ as, ∀ i, (f (a, i)).Perm (f' (a, i))) :
    (as.zipIdx.flatMap f).Perm (as.zipIdx.flatMap f') :=
  Perm.flatMap_left _ fun e he => h e.1 (List.fst_mem_of_mem_zipIdx he) e.2

namespace Node

variable {m n : Node}

namespace Alike

theorem shapeOf?_eq (h : m.Alike n) (g : Grammar) : g.shapeOf? m = g.shapeOf? n :=
  Grammar.shapeOf?_congr h.name (fun key => congrArg Option.isSome (h.property? key)) h.hasGroup

end Alike

namespace WellFormed

variable (h : n.WellFormed)
include h

theorem sorted_alike : n.sorted.Alike n := ⟨wellFormed_sorted n, h, sorted_same n⟩

theorem propertyFaults_sorted_perm (c : Shape) :
    (c.propertyFaults n.sorted).Perm (c.propertyFaults n) := by
  have hproperties : n.sorted.properties.Perm n.properties := by
    rw [sorted_eq]
    exact Entries.sorted_perm h.properties
  simp only [Shape.propertyFaults, h.property?_sorted]
  exact ((hproperties.filter _).map _).append_left _

variable {g : Grammar} {l : Location}

theorem groupFaults_sorted_perm {group : GroupDecl}
    (ih : ∀ c ∈ n.childrenOf group.name, ∀ l, (c.sorted.faults g l).Perm (c.faults g l)) :
    (groupFaults g l n.sorted group).Perm (groupFaults g l n group) := by
  rw [groupFaults, groupFaults, h.childrenOf_sorted, List.length_map, List.zipIdx_map,
    List.flatMap_map]
  refine (flatMap_zipIdx_perm fun c hc i => ?_).append_left _
  dsimp only [Prod.map]
  rw [faultsIn, faultsIn, name_sorted]
  split
  · exact ih c hc _
  · exact .refl _

end WellFormed

theorem strayFaults_map_sorted_perm {g : Grammar} {l : Location} {group : String} {cs : List Node}
    (ih : ∀ c ∈ cs, ∀ l, (c.sorted.faults g l).Perm (c.faults g l)) :
    (strayFaults g l group (cs.map sorted)).Perm (strayFaults g l group cs) := by
  rw [strayFaults, strayFaults, List.zipIdx_map, List.flatMap_map]
  exact .cons _ (flatMap_zipIdx_perm fun c hc i => ih c hc _)

/-- What is reported of the sorted node is reported of the node. -/
theorem WellFormed.faults_sorted_perm (h : n.WellFormed) (g : Grammar) (l : Location) :
    (n.sorted.faults g l).Perm (n.faults g l) := by
  induction n using induct generalizing l with
  | step n ih =>
    have halike := h.sorted_alike
    have hchild : ∀ e ∈ n.groups, ∀ c ∈ e.2, ∀ l, (c.sorted.faults g l).Perm (c.faults g l) :=
      fun e he c hc l => ih e he c hc (h.children e he c hc) l
    have hname := halike.name
    cases hdef : g.defines n.name with
    | false => rw [faults_of_undefined hdef, faults_of_undefined (hname.symm ▸ hdef), hname]
    | true =>
    cases hs : g.shapeOf? n with
    | none =>
      rw [faults_of_shapeOf?_eq_none hdef hs,
        faults_of_shapeOf?_eq_none (hname.symm ▸ hdef) ((halike.shapeOf?_eq g).trans hs), hname]
    | some c =>
      rw [faults_of_shapeOf? hs, faults_of_shapeOf? ((halike.shapeOf?_eq g).trans hs)]
      refine (((h.propertyFaults_sorted_perm c).map _).append ?_).append ?_
      · refine Perm.flatMap_left _ fun group _ => h.groupFaults_sorted_perm fun d hd => ?_
        obtain ⟨cs, hcs, hd⟩ := exists_mem_groups_of_mem_childrenOf hd
        exact hchild _ hcs d hd
      · -- the walk comes to these groups in the order of the node
        have hgroups : n.sorted.groups.Perm (n.groups.map fun e => (e.1, e.2.map sorted)) := by
          rw [sorted_eq]
          exact Entries.sorted_perm (Entries.distinct_map h.groups _)
        refine (hgroups.flatMap_right _).trans ?_
        rw [List.flatMap_map]
        refine Perm.flatMap_left _ fun e he => ?_
        dsimp only
        split
        · exact .refl _
        · exact strayFaults_map_sorted_perm (hchild e he)

/-- Of nodes that are alike the same is reported, up to the order. -/
theorem Alike.faults_perm (h : m.Alike n) (g : Grammar) (l : Location) :
    (m.faults g l).Perm (n.faults g l) := by
  have hm := h.left.faults_sorted_perm g l
  rw [h.same] at hm
  exact hm.symm.trans (h.right.faults_sorted_perm g l)

end Node

namespace Tree.Same

variable {s t : Tree} (h : s.Same t) (g : Grammar)
include h

theorem faults_perm : (s.faults g).Perm (t.faults g) := by
  rw [Tree.faults, Tree.faults]
  rcases h.root_cases with ⟨hs, ht⟩ | ⟨m, n, hs, ht, halike⟩
  · rw [hs, ht]
  · rw [hs, ht]
    dsimp only
    rw [rootFaults, rootFaults, halike.name]
    exact (halike.faults_perm g .root).append_left _

/-- A subtree is inspected in both trees, or there is none in either. -/
theorem inspectAt_agree (l : Location) :
    Agree (fun report report' => report.value.Perm report'.value) (s.inspectAt g l)
      (t.inspectAt g l) := by
  rw [inspectAt, inspectAt]
  exact (h.nodeAt l).bind fun m n halike => .ok (halike.faults_perm g l)

end Tree.Same
end BlockEdit
