/-
What becomes of a description that is made into a node and described again,
and of a node that is described and made anew. A node has no maps that are
absent and no maps without order, so two things of a description are lost on
the way, and both can be said beforehand: its maps come back in ascending
order (`Description.sorted`), and an empty map comes back as none at all
(`Description.compact`).

Of a node the order of properties and groups is lost and nothing else. That
is so once only: a tree that was handed out and in again stays as it is when
that is done again (`roundTrips`).
-/
import BlockEdit.Proofs.Description.RoundTrip
import BlockEdit.Tree

namespace BlockEdit

namespace Description

/-! ## Rewriting all maps -/

section
variable (onProperties : Option (List (String × String)) → Option (List (String × String)))
  (onGroups : Option (List (String × List Description)) → Option (List (String × List Description)))

mutual
/-- Another description, with the maps of every level rewritten, from below. -/
def rewrite : Description → Description
  | ⟨language, name, properties, none⟩ =>
    ⟨language, name, onProperties properties, onGroups none⟩
  | ⟨language, name, properties, some groups⟩ =>
    ⟨language, name, onProperties properties, onGroups (some (rewriteGroups groups))⟩

def rewriteGroups : List (String × List Description) → List (String × List Description)
  | [] => []
  | (group, children) :: groups => (group, rewriteChildren children) :: rewriteGroups groups

def rewriteChildren : List Description → List Description
  | [] => []
  | child :: children => child.rewrite :: rewriteChildren children
end

theorem rewriteChildren_eq : ∀ cs, rewriteChildren onProperties onGroups cs =
    cs.map (rewrite onProperties onGroups)
  | [] => rfl
  | c :: cs => by rw [rewriteChildren, rewriteChildren_eq cs, List.map_cons]

theorem rewriteGroups_eq : ∀ gs, rewriteGroups onProperties onGroups gs =
    gs.map fun g => (g.1, g.2.map (rewrite onProperties onGroups))
  | [] => rfl
  | (group, cs) :: gs => by
    rw [rewriteGroups, rewriteGroups_eq gs, rewriteChildren_eq, List.map_cons]

theorem rewrite_eq (d : Description) : d.rewrite onProperties onGroups =
    ⟨d.language, d.name, onProperties d.properties, onGroups (d.children.map fun gs =>
      gs.map fun g => (g.1, g.2.map (rewrite onProperties onGroups)))⟩ := by
  obtain ⟨language, name, properties, children⟩ := d
  cases children with
  | none => rfl
  | some groups => rw [rewrite, rewriteGroups_eq]; rfl

end

theorem map_eq_self_iff {α : Type} {f : α → α} {as : List α} :
    as.map f = as ↔ ∀ a ∈ as, f a = a := by
  simpa using List.map_inj_left (l := as) (f := f) (g := id)

/-- Groups stay as they are if all their children do. -/
theorem map_groups_eq_self_iff {α : Type} {f : α → α} {gs : List (String × List α)} :
    (gs.map fun g => (g.1, g.2.map f)) = gs ↔ ∀ g ∈ gs, ∀ c ∈ g.2, f c = c := by
  simp only [map_eq_self_iff, Prod.ext_iff, true_and]

/-! ## Maps in order -/

/-- The description with its maps in ascending order, at every level. -/
def sorted : Description → Description :=
  rewrite (·.map Entries.sorted) (·.map Entries.sorted)

theorem sorted_eq (d : Description) : d.sorted =
    ⟨d.language, d.name, d.properties.map Entries.sorted,
      d.children.map fun gs => Entries.sorted (gs.map fun g => (g.1, g.2.map sorted))⟩ := by
  rw [sorted, rewrite_eq, Option.map_map]
  rfl

theorem getD_properties_sorted (d : Description) :
    d.sorted.properties.getD [] = Entries.sorted (d.properties.getD []) := by
  rw [sorted_eq]
  cases d.properties <;> rfl

theorem getD_children_sorted (d : Description) : d.sorted.children.getD [] =
    Entries.sorted ((d.children.getD []).map fun g => (g.1, g.2.map sorted)) := by
  rw [sorted_eq]
  cases d.children <;> rfl

theorem canonical_sorted (d : Description) : d.sorted.Canonical := by
  induction d using induct with
  | step d ih =>
    refine .intro ?_ ?_ fun g hg c hc => ?_
    · rw [getD_properties_sorted]
      exact Entries.ascending_sorted _
    · rw [getD_children_sorted]
      exact Entries.ascending_sorted _
    · rw [getD_children_sorted] at hg
      obtain ⟨g', hg', rfl⟩ := List.mem_map.1 (Entries.mem_of_mem_sorted hg)
      obtain ⟨c', hc', rfl⟩ := List.mem_map.1 hc
      exact ih g' hg' c' hc'

theorem map_sorted_of_ascending {α : Type} {m : Option (List (String × α))}
    (h : Entries.Ascending (m.getD [])) : m.map Entries.sorted = m := by
  cases m with
  | none => rfl
  | some es => exact congrArg some (Entries.sorted_of_ascending h)

/-- A canonical description is in order already. -/
theorem sorted_of_canonical {d : Description} (h : d.Canonical) : d.sorted = d := by
  induction h with
  | @intro d properties children nested ih =>
    have hchildren : (d.children.map fun gs => gs.map fun g => (g.1, g.2.map sorted)) =
        d.children := by
      cases hd : d.children with
      | none => rfl
      | some gs =>
        rw [hd] at ih
        exact congrArg some (map_groups_eq_self_iff.2 ih)
    rw [sorted, rewrite_eq, ← sorted, hchildren, map_sorted_of_ascending properties,
      map_sorted_of_ascending children]
    cases d
    rfl

/-! ## Empty maps left out -/

/-- No map in place of an empty one. -/
def filled? {α : Type} : Option (List α) → Option (List α)
  | some [] => none
  | m => m

/-- The description without its empty maps, at every level. -/
def compact : Description → Description := rewrite filled? filled?

theorem compact_eq (d : Description) : d.compact =
    ⟨d.language, d.name, filled? d.properties,
      filled? (d.children.map fun gs => gs.map fun g => (g.1, g.2.map compact))⟩ :=
  rewrite_eq ..

theorem filled?_some_getD {α : Type} (m : Option (List α)) :
    filled? (some (m.getD [])) = filled? m := by
  cases m <;> rfl

theorem filled?_eq_self_iff {α : Type} {m : Option (List α)} : filled? m = m ↔ m ≠ some [] := by
  unfold filled?
  split <;> simp_all

/-- No map of the description is empty, at any level. -/
inductive Compact : Description → Prop where
  | intro {d : Description} (properties : d.properties ≠ some []) (children : d.children ≠ some [])
      (nested : ∀ g ∈ d.children.getD [], ∀ c ∈ g.2, Compact c) : Compact d

theorem compact_iff {d : Description} : d.Compact ↔ d.properties ≠ some [] ∧
    d.children ≠ some [] ∧ ∀ g ∈ d.children.getD [], ∀ c ∈ g.2, c.Compact :=
  ⟨fun ⟨hp, hc, hn⟩ => ⟨hp, hc, hn⟩, fun ⟨hp, hc, hn⟩ => ⟨hp, hc, hn⟩⟩

theorem filled?_map_groups_eq_self_iff {f : Description → Description}
    {m : Option (List (String × List Description))} :
    filled? (m.map fun gs => gs.map fun g => (g.1, g.2.map f)) = m ↔
      m ≠ some [] ∧ ∀ g ∈ m.getD [], ∀ c ∈ g.2, f c = c := by
  match m with
  | none => simp [filled?]
  | some [] => simp [filled?]
  | some (g :: gs) =>
    rw [Option.getD_some, ← map_groups_eq_self_iff]
    simp [filled?]

theorem compact_eq_self_iff {d : Description} : d.compact = d ↔ d.Compact := by
  induction d using induct with
  | step d ih =>
    have hnested : (∀ g ∈ d.children.getD [], ∀ c ∈ g.2, c.compact = c) ↔
        ∀ g ∈ d.children.getD [], ∀ c ∈ g.2, c.Compact :=
      forall₂_congr fun g hg => forall₂_congr fun c hc => ih g hg c hc
    rw [compact_iff, ← hnested, ← filled?_map_groups_eq_self_iff, ← filled?_eq_self_iff,
      compact_eq]
    obtain ⟨language, name, properties, children⟩ := d
    simp

/-! ## Described again -/

theorem filled?_some_map_getD {α β : Type} (m : Option (List α)) (f : α → β) :
    filled? (some ((m.getD []).map f)) = filled? (m.map (·.map f)) := by
  cases m <;> rfl

theorem filled?_some_map {α β : Type} (as : List α) (f : α → β) :
    filled? (some (as.map f)) = if as.isEmpty then none else some (as.map f) := by
  cases as <;> rfl

/-- A node whose entries are in order is described as it stands. -/
theorem describe_of_sorted {n : Node} (hp : Entries.sorted n.properties = n.properties)
    (hg : Entries.sorted n.groups = n.groups) : n.describe =
      ⟨n.name.language, n.name.name, filled? (some n.properties),
        filled? (some (n.groups.map fun g => (g.1, g.2.map Node.describe)))⟩ := by
  rw [Node.describe_eq, ← Entries.map_sorted, hp, hg, filled?_some_map, ← List.map_id n.properties,
    filled?_some_map, List.map_id]

/-- What is described of a node made of a description: its maps in order, and no empty ones. -/
theorem describe_toNode (d : Description) : d.toNode.describe = d.sorted.compact := by
  induction d using induct with
  | step d ih =>
    have hgroups : ((Entries.sorted ((d.children.getD []).map fun g => (g.1, g.2.map toNode))).map
        fun g => (g.1, g.2.map Node.describe)) =
          (d.sorted.children.getD []).map fun g => (g.1, g.2.map compact) := by
      rw [getD_children_sorted, Entries.map_sorted, Entries.map_sorted, List.map_map, List.map_map]
      refine congrArg Entries.sorted (List.map_congr_left fun g hg => ?_)
      rw [Function.comp_apply, Function.comp_apply, List.map_map, List.map_map]
      exact congrArg (Prod.mk g.1) (List.map_congr_left fun c hc => ih g hg c hc)
    rw [describe_of_sorted, toNode_eq]
    · rw [hgroups, ← getD_properties_sorted, filled?_some_getD, filled?_some_map_getD, compact_eq,
        sorted_eq]
      rfl
    · rw [toNode_eq, Entries.sorted_sorted]
    · rw [toNode_eq, Entries.sorted_sorted]

/-- An empty map is left out, and an empty group is kept. -/
example : (toNode ⟨"note", "list", some [], some [("items", [])]⟩).describe =
    ⟨"note", "list", none, some [("items", [])]⟩ := by decide

end Description

namespace Node

/-- Properties and groups are in ascending order of their names, at every level. -/
inductive Ascending : Node → Prop where
  | intro {n : Node} (properties : Entries.Ascending n.properties)
      (groups : Entries.Ascending n.groups)
      (children : ∀ g ∈ n.groups, ∀ c ∈ g.2, Ascending c) : Ascending n

theorem ascending_sorted (n : Node) : n.sorted.Ascending := by
  induction n using induct with
  | step n ih =>
    rw [sorted_eq]
    refine .intro (Entries.ascending_sorted _) (Entries.ascending_sorted _) fun g hg c hc => ?_
    obtain ⟨g', hg', rfl⟩ := List.mem_map.1 (Entries.mem_of_mem_sorted hg)
    obtain ⟨c', hc', rfl⟩ := List.mem_map.1 hc
    exact ih g' hg' c' hc'

end Node

namespace Tree

theorem root_reload (t : Tree) : t.reload.root = t.root.map Node.sorted := by
  rw [reload, describe]
  cases t.root with
  | none => rfl
  | some n => exact congrArg some (Node.toNode_describe n)

theorem reload_reload (t : Tree) : t.reload.reload = t.reload := by
  refine Tree.ext ?_
  rw [root_reload, root_reload, Option.map_map]
  exact congrArg (Option.map · t.root) (funext Node.sorted_sorted)

end Tree

/-- **What comes back.** A description that is made into a node is described again with its maps
in order and without its empty maps, at every level, and otherwise as it was; so it comes back
itself just when none of its maps is empty. The order is no part of what a description says: every
description has a canonical form, and one that is canonical already is that form itself. A node
that is described and made anew is the same node with its properties and groups in ascending
order, at every level. And a tree that was handed out and in comes back as it is from then on. -/
theorem roundTrips (d : Description) (n : Node) (t : Tree) :
    (d.sorted.Canonical ∧ (d.Canonical → d.sorted = d) ∧
      d.toNode.describe = d.sorted.compact ∧
      (d.toNode.describe = d.sorted ↔ d.sorted.Compact)) ∧
    (n.describe.toNode.Same n ∧ n.describe.toNode = n.sorted ∧ n.describe.toNode.Ascending) ∧
    t.reload.reload = t.reload := by
  refine ⟨⟨d.canonical_sorted, Description.sorted_of_canonical, d.describe_toNode, ?_⟩,
    ⟨n.same_toNode_describe, n.toNode_describe, ?_⟩, t.reload_reload⟩
  · rw [d.describe_toNode, Description.compact_eq_self_iff]
  · rw [n.toNode_describe]
    exact n.ascending_sorted

end BlockEdit
