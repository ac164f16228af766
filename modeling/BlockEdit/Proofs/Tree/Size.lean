/-
The size of a tree is the number of its locations: of those that lead to a node.
A node's children have a step each (`Node.numbered`), no two the same, since
groups have distinct names. So the paths to the nodes below can be listed
without one coming up twice (`Node.paths`), and there are as many as nodes.

The descriptions nested in one are counted likewise. None is lost when a node is
made of them, if no two groups have one name, as in maps.
-/
import BlockEdit.Proofs.Description.NormalForm
import BlockEdit.Proofs.Node.Order
import BlockEdit.Proofs.Tree.Frame
import BlockEdit.Proofs.Tree.Removal
import Mathlib.Data.Set.Card

namespace BlockEdit

namespace Node

/-! ## The children and their steps -/

/-- What stands in groups, under the step that leads there. -/
def numbered {α : Type} (groups : List (String × List α)) : Entries Step α :=
  groups.flatMap fun g => g.2.zipIdx.map fun e => (⟨g.1, e.2⟩, e.1)

section
variable {α β : Type} {groups : List (String × List α)}

theorem numbered_map (f : α → β) (groups : List (String × List α)) :
    numbered (groups.map fun g => (g.1, g.2.map f)) =
      (numbered groups).map fun e => (e.1, f e.2) := by
  simp only [numbered, List.flatMap_map, List.map_flatMap, List.zipIdx_map, List.map_map]
  rfl

theorem map_numbered (f : α → β) (groups : List (String × List α)) :
    ((numbered groups).map fun e => f e.2) = groups.flatMap fun g => g.2.map f := by
  rw [numbered, List.map_flatMap]
  refine List.flatMap_congr fun g _ => ?_
  have hfst : g.2.zipIdx.map (f ∘ Prod.fst) = g.2.map f := by
    rw [← List.map_map, List.zipIdx_map_fst]
  rw [List.map_map, ← hfst]
  rfl

theorem mem_numbered_iff {s : Step} {a : α} :
    (s, a) ∈ numbered groups ↔ ∃ as, (s.group, as) ∈ groups ∧ as[s.index]? = some a := by
  constructor
  · intro h
    obtain ⟨g, hg, h⟩ := List.mem_flatMap.1 h
    obtain ⟨⟨b, i⟩, hb, heq⟩ := List.mem_map.1 h
    cases heq
    exact ⟨g.2, hg, List.mem_zipIdx_iff_getElem?.1 hb⟩
  · rintro ⟨as, hg, ha⟩
    have hmem : (a, s.index) ∈ as.zipIdx := List.mem_zipIdx_iff_getElem?.2 ha
    exact List.mem_flatMap.2 ⟨_, hg, List.mem_map.2 ⟨_, hmem, rfl⟩⟩

/-- In one group the indices differ, and the groups have distinct names. -/
theorem distinct_numbered (h : Entries.Distinct groups) : Entries.Distinct (numbered groups) := by
  have hsteps : ∀ g : String × List α,
      ((g.2.zipIdx.map fun e => (Step.mk g.1 e.2, e.1)).map (·.1)).Nodup := by
    intro g
    have hindex : ((g.2.zipIdx.map fun e => (Step.mk g.1 e.2, e.1)).map (·.1)).map Step.index =
        List.range' 0 g.2.length := by
      rw [List.map_map, List.map_map, ← List.zipIdx_map_snd]
      rfl
    exact List.Nodup.of_map Step.index (hindex ▸ List.nodup_range')
  rw [Entries.Distinct, Entries.keys, numbered, List.map_flatMap, List.nodup_flatMap]
  refine ⟨fun g _ => hsteps g, (List.pairwise_map.1 h).imp fun hne => ?_⟩
  refine List.disjoint_left.2 fun s hs hs' => hne ?_
  simp only [List.map_map, List.mem_map, Function.comp_apply] at hs hs'
  obtain ⟨_, -, rfl⟩ := hs
  obtain ⟨_, -, heq⟩ := hs'
  exact (congrArg Step.group heq).symm

end

theorem child?_eq_some_iff {n c : Node} {s : Step} (wf : n.WellFormed) :
    n.child? s = some c ↔ (s, c) ∈ numbered n.groups := by
  simp only [mem_numbered_iff, ← Entries.get?_eq_some_iff_mem wf.groups, child?, childrenOf]
  cases Entries.get? n.groups s.group <;> simp

/-! ## Paths -/

/-- The paths to the nodes of the subtree, the path of each node ahead of those below it. -/
def paths : Node → List (List Step) :=
  fold fun _ groups => [] :: (numbered groups).flatMap fun e => e.2.2.map (e.1 :: ·)

theorem paths_eq (n : Node) :
    n.paths = [] :: (numbered n.groups).flatMap fun e => e.2.paths.map (e.1 :: ·) := by
  rw [paths, fold_eq, ← paths, numbered_map, List.flatMap_map]

theorem cons_mem_paths_iff {n : Node} (wf : n.WellFormed) {s : Step} {path : List Step} :
    s :: path ∈ n.paths ↔ ∃ c, n.child? s = some c ∧ path ∈ c.paths := by
  simp only [child?_eq_some_iff wf]
  rw [paths_eq, List.mem_cons, List.mem_flatMap]
  constructor
  · rintro (h | ⟨⟨_, c⟩, hc, h⟩)
    · cases h
    · obtain ⟨path, hpath, heq⟩ := List.mem_map.1 h
      cases heq
      exact ⟨c, hc, hpath⟩
  · rintro ⟨c, hc, hpath⟩
    exact .inr ⟨(s, c), hc, List.mem_map_of_mem hpath⟩

/-- Just the paths that lead somewhere are listed. -/
theorem mem_paths_iff {n : Node} (wf : n.WellFormed) {path : List Step} :
    path ∈ n.paths ↔ (n.at? path).isSome = true := by
  induction path generalizing n with
  | nil =>
    rw [paths_eq]
    exact iff_of_true List.mem_cons_self rfl
  | cons s path ih =>
    rw [cons_mem_paths_iff wf, at?]
    cases hc : n.child? s with
    | none => simp
    | some c => simp [ih (wf.child? hc)]

theorem nodup_paths {n : Node} (wf : n.WellFormed) : n.paths.Nodup := by
  induction n using induct_childrenOf with
  | step n ih =>
    rw [paths_eq, List.nodup_cons, List.nodup_flatMap]
    refine ⟨by simp, fun ⟨s, c⟩ hc => ?_, ?_⟩
    · have hchild : c ∈ n.childrenOf s.group :=
        List.mem_of_getElem? ((child?_eq_some_iff wf).2 hc)
      exact (ih s.group c hchild (wf.childrenOf hchild)).map List.cons_injective
    · -- paths to different children part at the first step
      refine (List.pairwise_map.1 (distinct_numbered wf.groups)).imp fun hne => ?_
      refine List.disjoint_left.2 fun path hpath hpath' => hne ?_
      obtain ⟨_, -, rfl⟩ := List.mem_map.1 hpath
      obtain ⟨_, -, heq⟩ := List.mem_map.1 hpath'
      exact (List.cons.inj heq).1.symm

theorem size_eq_sum (n : Node) : n.size = 1 + (n.groups.flatMap fun g => g.2.map size).sum := by
  rw [size_eq, List.flatMap_def, List.sum_flatten, List.map_map]
  rfl

theorem length_paths (n : Node) : n.paths.length = n.size := by
  induction n using induct with
  | step n ih =>
    have hchildren : (n.groups.flatMap fun g => g.2.map fun c => c.paths.length) =
        n.groups.flatMap fun g => g.2.map size :=
      List.flatMap_congr fun g hg => List.map_congr_left (ih g hg)
    rw [paths_eq, size_eq_sum, ← hchildren, ← map_numbered, List.length_cons, List.length_flatMap,
      Nat.add_comm]
    simp only [List.length_map]

theorem encard_paths {n : Node} (wf : n.WellFormed) :
    {path | (n.at? path).isSome = true}.encard = n.size := by
  have hset : {path | (n.at? path).isSome = true} = (n.paths.toFinset : Set (List Step)) := by
    ext path
    simp [mem_paths_iff wf]
  rw [hset, Set.encard_coe_eq_coe_finsetCard, List.toFinset_card_of_nodup (nodup_paths wf),
    length_paths]

end Node

/-! ## Descriptions -/

namespace Description

/-- The children are a map, at every level: no two groups have one name. -/
inductive DistinctGroups : Description → Prop where
  | intro {d : Description} (groups : Entries.Distinct (d.children.getD []))
      (nested : ∀ g ∈ d.children.getD [], ∀ c ∈ g.2, DistinctGroups c) : DistinctGroups d

theorem Canonical.distinctGroups {d : Description} (h : d.Canonical) : d.DistinctGroups := by
  induction h with
  | intro _ children _ ih => exact .intro children.distinct ih

theorem childrenSize_eq : ∀ cs, childrenSize cs = (cs.map size).sum
  | [] => rfl
  | c :: cs => by rw [childrenSize, childrenSize_eq cs, List.map_cons, List.sum_cons]

theorem groupsSize_eq : ∀ gs, groupsSize gs = (gs.flatMap fun g => g.2.map size).sum
  | [] => rfl
  | (group, cs) :: gs => by
    rw [groupsSize, groupsSize_eq gs, childrenSize_eq, List.flatMap_cons, List.sum_append]

theorem size_eq_sum (d : Description) :
    d.size = 1 + ((d.children.getD []).flatMap fun g => g.2.map size).sum := by
  obtain ⟨language, name, properties, children⟩ := d
  cases children with
  | none => rfl
  | some groups =>
    rw [size, groupsSize_eq]
    rfl

theorem size_toNode {d : Description} (h : d.DistinctGroups) : d.toNode.size = d.size := by
  induction h with
  | @intro d groups nested ih =>
    rw [Node.size_eq_sum, size_eq_sum, toNode_eq]
    dsimp only
    have hdistinct := Entries.distinct_map groups fun cs => cs.map toNode
    have hperm := (Entries.sorted_perm hdistinct).flatMap_right fun g => g.2.map Node.size
    rw [hperm.sum_nat, List.flatMap_map]
    refine congrArg (1 + ·.sum) (List.flatMap_congr fun g hg => ?_)
    rw [List.map_map]
    exact List.map_congr_left (ih g hg)

end Description

/-! ## Trees -/

namespace Tree

variable {t : Tree} {l : Location} {n : Node}

/-- Locations in a subtree are paths from its top. -/
theorem within_eq_image_along (h : t.nodeAt? l = some n) :
    {m | l.contains m = true ∧ (t.nodeAt? m).isSome = true} =
      l.along '' {path | (n.at? path).isSome = true} := by
  have hpath : ∀ path, t.nodeAt? (l.along path) = n.at? path := fun path => by
    rw [nodeAt?_along, h, Option.bind_some]
  ext m
  constructor
  · rintro ⟨hm, hsome⟩
    obtain ⟨path, rfl⟩ := Location.contains_iff_exists_along.1 hm
    rw [hpath] at hsome
    exact ⟨path, hsome, rfl⟩
  · rintro ⟨path, hsome, rfl⟩
    refine ⟨Location.contains_iff_exists_along.2 ⟨path, rfl⟩, ?_⟩
    rw [hpath]
    exact hsome

theorem encard_within (h : t.nodeAt? l = some n) :
    {m | l.contains m = true ∧ (t.nodeAt? m).isSome = true}.encard = n.size := by
  have hinj : Function.Injective l.along := fun _ _ => l.along_injective
  rw [within_eq_image_along h, hinj.encard_image, Node.encard_paths (wellFormed_of_nodeAt? h)]

/-- All there is is within the root. -/
theorem encard_locations (t : Tree) : {l | (t.nodeAt? l).isSome = true}.encard = t.size := by
  cases hroot : t.root with
  | none =>
    have hnone : {l | (t.nodeAt? l).isSome = true} = ∅ := by
      ext l
      simp [nodeAt?, hroot]
    rw [hnone, Set.encard_empty, size, hroot]
    rfl
  | some n =>
    have hn : t.nodeAt? .root = some n := by
      rw [nodeAt?, hroot]
      rfl
    have hall : ∀ l, Location.root.contains l = true := fun l =>
      Location.contains_iff.2 List.nil_prefix
    have h := encard_within hn
    simp only [hall, true_and] at h
    rw [h, size, hroot]

/-- **The size counts locations.** A tree has as many nodes as locations that lead to one, and the
empty tree has none; the subtree at a location has as many as there are such locations in it. A
node made of a description has one node for each description nested in that. -/
theorem size_counts (t : Tree) :
    {l | (t.nodeAt? l).isSome = true}.encard = t.size ∧
    empty.size = 0 ∧
    (∀ l n, t.nodeAt? l = some n →
      {m | l.contains m = true ∧ (t.nodeAt? m).isSome = true}.encard = n.size) ∧
    ∀ d : Description, d.DistinctGroups → d.toNode.size = d.size :=
  ⟨t.encard_locations, rfl, fun _ _ => encard_within, fun _ => Description.size_toNode⟩

/-- The list and its three items, two of them at or below the second place. -/
theorem size_counts_checklist :
    checklist.DistinctGroups ∧ (ofDescription checklist).size = 4 ∧
    ∃ n, (ofDescription checklist).nodeAt? (Location.root.child "items" 1) = some n ∧
      {m | (Location.root.child "items" 1).contains m = true ∧
        ((ofDescription checklist).nodeAt? m).isSome = true}.encard = 2 := by
  have hsorted : checklist.sorted = checklist := by decide
  have hcanonical : checklist.Canonical := hsorted ▸ checklist.canonical_sorted
  obtain ⟨-, -, hwithin, hmade⟩ := size_counts (ofDescription checklist)
  exact ⟨hcanonical.distinctGroups, hmade checklist hcanonical.distinctGroups, _, rfl,
    hwithin (Location.root.child "items" 1) _ rfl⟩

end Tree
end BlockEdit
