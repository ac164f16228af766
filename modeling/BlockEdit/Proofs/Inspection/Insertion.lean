/-
What a new child does to the faults of its parent's subtree. Each fault reads
as before, but for two things: siblings behind the child have moved up, and
the group that has the child needs one less (`Fault.afterInsertion`). The
faults of the child come to those, and no others
(`Node.faults_perm_of_insertChild?`).

The faults of the children are in the order of the indices, so those of the
new child come in between, and the statement is one of permutations. That the
others only move is a matter of locations: a subtree has the same faults at
the next index as it has here.
-/
import BlockEdit.Proofs.Inspection.Relocation
import BlockEdit.Proofs.Location.Insertion
import BlockEdit.Proofs.Tree.Insertion

namespace BlockEdit

/-! ## One fault -/

namespace Fault

/-- One child less is wanting in the group; if that makes none, there is nothing to report. -/
def Cause.withOneMore (group : String) : Cause → Option Cause
  | groupShort name missing =>
    if name = group then
      if 1 < missing then some (groupShort name (missing - 1)) else none
    else some (groupShort name missing)
  | cause => some cause

/-- How a fault reads after the node at `parent` got a child by the step `s`. -/
def afterInsertion (parent : Location) (s : Step) (f : Fault) : Option Fault :=
  (if f.location = parent then f.cause.withOneMore s.group else some f.cause).map
    (⟨f.location.afterInsertion (parent.child s.group s.index), ·⟩)

theorem Cause.withOneMore_eq_some {cause : Cause} {group : String}
    (h : ∀ missing, cause ≠ .groupShort group missing) : cause.withOneMore group = some cause := by
  cases cause with
  | groupShort name missing =>
    rw [withOneMore, if_neg]
    rintro rfl
    exact h missing rfl
  | _ => rfl

theorem filterMap_withOneMore_eq_self {causes : List Cause} {group : String}
    (h : ∀ cause ∈ causes, ∀ missing, cause ≠ .groupShort group missing) :
    causes.filterMap (·.withOneMore group) = causes := by
  rw [List.filterMap_congr fun cause hc => Cause.withOneMore_eq_some (h cause hc),
    List.filterMap_some]

variable (parent : Location) {s : Step}

/-- What is reported on the parent itself is still reported there. -/
theorem afterInsertion_self (cause : Cause) : (⟨parent, cause⟩ : Fault).afterInsertion parent s =
    (cause.withOneMore s.group).map (⟨parent, ·⟩) := by
  rw [afterInsertion, if_pos rfl, Location.self_afterInsertion]

theorem filterMap_afterInsertion_map (causes : List Cause) :
    (causes.map (⟨parent, ·⟩ : Cause → Fault)).filterMap (afterInsertion parent s) =
      (causes.filterMap (·.withOneMore s.group)).map (⟨parent, ·⟩) := by
  rw [List.filterMap_map, List.map_filterMap]
  exact List.filterMap_congr fun cause _ => afterInsertion_self parent cause

theorem afterInsertion_below {group : String} {i : Nat} (f : Fault) :
    (f.below (parent.child group i)).afterInsertion parent s =
      some ⟨(f.below (parent.child group i)).location.afterInsertion
        (parent.child s.group s.index), f.cause⟩ := by
  have hne : (f.below (parent.child group i)).location ≠ parent := by
    intro h
    have hcons := Location.along_child parent ⟨group, i⟩ f.location.steps
    exact List.cons_ne_nil _ _
      (parent.along_injective (hcons.symm.trans (h.trans parent.along_nil.symm)))
  rw [afterInsertion, if_neg hne]
  rfl

variable {report : Location → List Fault}

/-- What is said of a child before which the new one came in is said at the next index. -/
theorem Movable.filterMap_afterInsertion_of_le (h : Movable report) {i : Nat} (hi : s.index ≤ i) :
    (report (parent.child s.group i)).filterMap (afterInsertion parent s) =
      report (parent.child s.group (i + 1)) := by
  rw [h (parent.child s.group i), h (parent.child s.group (i + 1)), List.filterMap_map,
    ← List.filterMap_eq_map']
  refine List.filterMap_congr fun f _ => ?_
  rw [Function.comp_apply, afterInsertion_below, below, below,
    Location.along_afterInsertion_of_le _ _ hi]

/-- What is said of any other child is said where it was. -/
theorem Movable.filterMap_afterInsertion_of_not (h : Movable report) {group : String} {i : Nat}
    (hi : ¬ (group = s.group ∧ s.index ≤ i)) :
    (report (parent.child group i)).filterMap (afterInsertion parent s) =
      report (parent.child group i) := by
  rw [h (parent.child group i), List.filterMap_map, ← List.filterMap_eq_map']
  refine List.filterMap_congr fun f _ => ?_
  rw [Function.comp_apply, afterInsertion_below, below, Location.along_afterInsertion_of_not _ _ hi]

end Fault

/-! ## One group -/

section
variable {α β : Type} {as : List α} {i : Nat} {f : α × Nat → List β} {φ : β → Option β}

open scoped List in
/-- What a part has more of comes last if the order does not matter. -/
theorem append_perm_of_perm {part part' extra : List β} (before after : List β)
    (h : part ~ part' ++ extra) :
    before ++ (part ++ after) ~ before ++ (part' ++ after) ++ extra := by
  have hlast : extra ++ after ~ after ++ extra := List.perm_append_comm
  calc before ++ (part ++ after)
    _ ~ before ++ (part' ++ extra ++ after) := (h.append_right after).append_left before
    _ = before ++ (part' ++ (extra ++ after)) := by rw [List.append_assoc part']
    _ ~ before ++ (part' ++ (after ++ extra)) := (hlast.append_left part').append_left before
    _ = before ++ (part' ++ after) ++ extra := by simp only [List.append_assoc]

/-- If what comes of an element depends on its index only up to `φ`, inserting one adds what
comes of that one. -/
theorem flatMap_zipIdx_insertIdx_perm (x : α) (hi : i ≤ as.length)
    (hbefore : ∀ a ∈ as, ∀ j < i, (f (a, j)).filterMap φ = f (a, j))
    (hafter : ∀ a ∈ as, ∀ j, i ≤ j → (f (a, j)).filterMap φ = f (a, j + 1)) :
    ((as.insertIdx i x).zipIdx.flatMap f).Perm ((as.zipIdx.flatMap f).filterMap φ ++ f (x, i)) := by
  obtain ⟨before, after, rfl, rfl, hins⟩ := List.exists_of_modifyTailIdx (List.cons x) hi
  have hfirst : (before.zipIdx.flatMap f).filterMap φ = before.zipIdx.flatMap f := by
    rw [List.filterMap_flatMap]
    refine List.flatMap_congr fun e he => ?_
    obtain ⟨hlt, -⟩ := List.mem_zipIdx' he
    exact hbefore e.1 (List.mem_append_left _ (List.fst_mem_of_mem_zipIdx he)) e.2 hlt
  have hrest : ((after.zipIdx before.length).flatMap f).filterMap φ =
      (after.zipIdx (before.length + 1)).flatMap f := by
    rw [List.filterMap_flatMap, List.zipIdx_succ, List.flatMap_map]
    refine List.flatMap_congr fun e he => ?_
    exact hafter e.1 (List.mem_append_right _ (List.fst_mem_of_mem_zipIdx he)) e.2
      (List.mem_zipIdx he).1
  rw [List.insertIdx, hins, List.zipIdx_append, List.zipIdx_cons, List.flatMap_append,
    List.flatMap_cons, List.zipIdx_append, List.flatMap_append, List.filterMap_append, Nat.zero_add,
    hfirst, hrest]
  have hmiddle : (f (x, before.length)).Perm ([] ++ f (x, before.length)) := .refl _
  exact append_perm_of_perm _ _ hmiddle

end

namespace GroupDecl

variable {d : GroupDecl} {count : Nat}

/-- With one more child a group that has room for it needs one less. -/
theorem countFaults_succ (h : d.bounds.takesAnother count = true) :
    d.countFaults (count + 1) = (d.countFaults count).filterMap (·.withOneMore d.name) := by
  rw [Bounds.takesAnother_iff] at h
  have hcount : ∀ k ≤ count + 1, d.countFaults k =
      if 0 < d.bounds.min - k then [.groupShort d.name (d.bounds.min - k)] else [] := by
    intro k hk
    rw [countFaults, Bounds.shortfall]
    cases hmax : d.bounds.max with
    | none => exact List.append_nil _
    | some max =>
      have hle := h max hmax
      dsimp only
      rw [if_neg (by omega : ¬ max < k), List.append_nil]
  rw [hcount (count + 1) (Nat.le_refl _), hcount count (Nat.le_succ _)]
  by_cases hmany : 1 < d.bounds.min - count
  · rw [if_pos (by omega), if_pos (by omega), List.filterMap_cons, Fault.Cause.withOneMore,
      if_pos rfl, if_pos hmany, Nat.sub_sub]
    rfl
  · rw [if_neg (by omega)]
    split
    · rw [List.filterMap_cons, Fault.Cause.withOneMore, if_pos rfl, if_neg hmany]
      rfl
    · rfl

end GroupDecl

namespace Node

open Fault (afterInsertion afterInsertion_self filterMap_afterInsertion_map
  filterMap_withOneMore_eq_self)

variable {g : Grammar} {n m child : Node} {s : Step} {parent : Location} {d : GroupDecl}

/-- Other groups have the faults that they had. -/
theorem groupFaults_of_insertChild?_of_ne (h : n.insertChild? s child = some m)
    (hd : d.name ≠ s.group) :
    groupFaults g parent m d = (groupFaults g parent n d).filterMap (afterInsertion parent s) := by
  unfold groupFaults
  rw [childrenOf_insertChild?_of_ne h hd, List.filterMap_append,
    filterMap_afterInsertion_map, filterMap_withOneMore_eq_self, List.filterMap_flatMap]
  · congr 1
    refine List.flatMap_congr fun e _ => ?_
    have hmoves := movable_faultsIn d (movable_faults g e.1)
    exact (hmoves.filterMap_afterInsertion_of_not parent fun hs => hd hs.1).symm
  · rintro cause hc missing rfl
    rcases GroupDecl.mem_countFaults_iff.1 hc with ⟨_, -, -, hcause⟩ | ⟨_, -, -, hcause⟩
    · exact hd (Fault.Cause.groupShort.inj hcause).1.symm
    · cases hcause

/-- The group that got the child has the faults that it had, and those of the child. -/
theorem groupFaults_of_insertChild?_self (h : n.insertChild? s child = some m)
    (hd : d.name = s.group) (hroom : d.bounds.takesAnother (n.childrenOf d.name).length = true)
    (hadmits : g.admits d child.name = true) :
    (groupFaults g parent m d).Perm
      ((groupFaults g parent n d).filterMap (afterInsertion parent s) ++
        child.faults g (parent.child s.group s.index)) := by
  have hmoves := fun c => movable_faultsIn d (movable_faults g c)
  have hi := (insertChild?_eq_some_iff.1 h).1
  have hchildren := childrenOf_insertChild?_self h
  rw [← hd] at hi hchildren
  have hperm : (((n.childrenOf d.name).insertIdx s.index child).zipIdx.flatMap fun e =>
        e.1.faultsIn g d (parent.child d.name e.2)).Perm
      (((n.childrenOf d.name).zipIdx.flatMap fun e =>
        e.1.faultsIn g d (parent.child d.name e.2)).filterMap (afterInsertion parent s) ++
          child.faultsIn g d (parent.child d.name s.index)) := by
    refine flatMap_zipIdx_insertIdx_perm child hi (fun c _ j hj => ?_) fun c _ j hj => ?_
    · exact (hmoves c).filterMap_afterInsertion_of_not parent (by omega)
    · dsimp only
      rw [hd]
      exact (hmoves c).filterMap_afterInsertion_of_le parent hj
  unfold groupFaults
  rw [hchildren, List.length_insertIdx_of_le_length hi,
    GroupDecl.countFaults_succ hroom, List.filterMap_append, filterMap_afterInsertion_map,
    List.append_assoc, ← hd]
  refine List.Perm.append_left _ (hperm.trans (List.Perm.of_eq ?_))
  rw [faultsIn, if_pos hadmits, hd]

/-! ## The whole subtree -/

/-- Among the declared groups just the one that got the child has something to add. -/
theorem flatMap_groupFaults_of_insertChild? {groups : List GroupDecl}
    (h : n.insertChild? s child = some m) (once : groups.filter (·.name = s.group) = [d])
    (hroom : d.bounds.takesAnother (n.childrenOf s.group).length = true)
    (hadmits : g.admits d child.name = true) :
    (groups.flatMap (groupFaults g parent m)).Perm
      ((groups.flatMap (groupFaults g parent n)).filterMap (afterInsertion parent s) ++
        child.faults g (parent.child s.group s.index)) := by
  obtain ⟨before, after, rfl, hbefore, hname, hnone⟩ := List.filter_eq_cons_iff.1 once
  have hname : d.name = s.group := by simpa using hname
  have hafter : ∀ d' ∈ after, d'.name ≠ s.group := by simpa [List.filter_eq_nil_iff] using hnone
  have hself : (groupFaults g parent m d).Perm
      ((groupFaults g parent n d).filterMap (afterInsertion parent s) ++
        child.faults g (parent.child s.group s.index)) :=
    groupFaults_of_insertChild?_self h hname (hname ▸ hroom) hadmits
  have hfirst : before.flatMap (groupFaults g parent m) =
      (before.flatMap (groupFaults g parent n)).filterMap (afterInsertion parent s) := by
    rw [List.filterMap_flatMap]
    refine List.flatMap_congr fun d' hd' => groupFaults_of_insertChild?_of_ne h ?_
    simpa using hbefore d' hd'
  have hrest : after.flatMap (groupFaults g parent m) =
      (after.flatMap (groupFaults g parent n)).filterMap (afterInsertion parent s) := by
    rw [List.filterMap_flatMap]
    exact List.flatMap_congr fun d' hd' => groupFaults_of_insertChild?_of_ne h (hafter d' hd')
  simp only [List.flatMap_append, List.flatMap_cons, List.filterMap_append, hfirst, hrest]
  exact append_perm_of_perm _ _ hself

/-- A group that is not declared is another than the one that got the child. -/
theorem filterMap_strayFaults_of_ne {name : String} (hne : name ≠ s.group)
    (children : List Node) :
    (strayFaults g parent name children).filterMap (afterInsertion parent s) =
      strayFaults g parent name children := by
  have hchildren : (children.zipIdx.flatMap fun e =>
        e.1.faults g (parent.child name e.2)).filterMap (afterInsertion parent s) =
      children.zipIdx.flatMap fun e => e.1.faults g (parent.child name e.2) := by
    rw [List.filterMap_flatMap]
    refine List.flatMap_congr fun e _ => ?_
    exact (movable_faults g e.1).filterMap_afterInsertion_of_not parent fun hs => hne hs.1
  rw [strayFaults, List.filterMap_cons, afterInsertion_self, hchildren]
  rfl

theorem strayFaults_of_insertChild? {c : Shape} (h : n.insertChild? s child = some m)
    (hd : (c.group? s.group).isSome = true) :
    (m.groups.flatMap fun e =>
        if (c.group? e.1).isSome then [] else strayFaults g parent e.1 e.2) =
      (n.groups.flatMap fun e =>
        if (c.group? e.1).isSome then [] else strayFaults g parent e.1 e.2).filterMap
          (afterInsertion parent s) := by
  obtain ⟨-, rfl⟩ := insertChild?_eq_some_iff.1 h
  rw [setGroup, Entries.flatMap_put fun _ => if_pos hd, List.filterMap_flatMap]
  refine List.flatMap_congr fun e _ => ?_
  split
  · rfl
  · next hnot =>
    have hne : e.1 ≠ s.group := fun he => hnot (he ▸ hd)
    exact (filterMap_strayFaults_of_ne hne e.2).symm

theorem propertyFaults_of_insertChild? {c : Shape} (h : n.insertChild? s child = some m) :
    (c.propertyFaults m).map (⟨parent, ·⟩) =
      ((c.propertyFaults n).map (⟨parent, ·⟩ : Fault.Cause → Fault)).filterMap
        (afterInsertion parent s) := by
  obtain ⟨-, rfl⟩ := insertChild?_eq_some_iff.1 h
  rw [filterMap_afterInsertion_map, filterMap_withOneMore_eq_self]
  · rfl
  · rintro cause hc missing rfl
    simpa using Shape.mem_propertyFaults_iff.1 hc

/-- The shape of the parent declares the group, so it is the shape afterwards too. -/
theorem shapeOf?_of_insertChild? {c : Shape} (h : n.insertChild? s child = some m)
    (hc : g.shapeOf? n = some c) (hd : (c.group? s.group).isSome = true) :
    g.shapeOf? m = some c := by
  obtain ⟨-, rfl⟩ := insertChild?_eq_some_iff.1 h
  exact Grammar.shapeOf?_setGroup _ hc hd

/-- A child that comes into a group with room, and is admitted there, adds its own faults to
those that there were, and takes from those one that it was wanting for. -/
theorem faults_perm_of_insertChild? {c : Shape} (h : n.insertChild? s child = some m)
    (hc : g.shapeOf? n = some c) (once : c.groups.filter (·.name = s.group) = [d])
    (hroom : d.bounds.takesAnother (n.childrenOf s.group).length = true)
    (hadmits : g.admits d child.name = true) :
    (m.faults g parent).Perm ((n.faults g parent).filterMap (afterInsertion parent s) ++
      child.faults g (parent.child s.group s.index)) := by
  have hd : (c.group? s.group).isSome = true := by rw [Shape.group?_of_once once]; rfl
  have hgroups : (c.groups.flatMap (groupFaults g parent m)).Perm
      ((c.groups.flatMap (groupFaults g parent n)).filterMap (afterInsertion parent s) ++
        child.faults g (parent.child s.group s.index)) :=
    flatMap_groupFaults_of_insertChild? h once hroom hadmits
  rw [faults_of_shapeOf? hc, faults_of_shapeOf? (shapeOf?_of_insertChild? h hc hd),
    List.filterMap_append, List.filterMap_append, ← propertyFaults_of_insertChild? h,
    ← strayFaults_of_insertChild? h hd, List.append_assoc, List.append_assoc (List.map _ _)]
  exact append_perm_of_perm _ _ hgroups

end Node
end BlockEdit
