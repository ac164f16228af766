/-
Locations: the way from the root of a tree to a node, one step for each
child group and index on the way. A location names no node, so it stays a
value across edits, also when it no longer leads anywhere.

`afterRemoval` says how a location reads once the node at another location
is gone: the siblings behind it close up, and a location inside the removed
subtree is no more. It compares paths only and looks at no tree.

Locations are ordered step by step, first by group and then by index, and a
location comes ahead of what lies below it. The order is total, and equality
is what it calls equal.
-/
namespace BlockEdit

/-- The child at `index` of the child group `group`. -/
structure Step where
  group : String
  index : Nat
deriving DecidableEq, Repr

theorem Step.eq_of_group_of_index {s t : Step} (hgroup : s.group = t.group)
    (hindex : s.index = t.index) : s = t := by
  cases s
  cases t
  cases hgroup
  cases hindex
  rfl

structure Location where
  steps : List Step
deriving DecidableEq, Repr

def Step.display (s : Step) : String := "/" ++ s.group ++ "[" ++ toString s.index ++ "]"

namespace Location

def root : Location := ⟨[]⟩

def isRoot (l : Location) : Bool := l.steps.isEmpty

def depth (l : Location) : Nat := l.steps.length

def lastStep? (l : Location) : Option Step := l.steps.getLast?

/-- The parent, and the step that leads from there. -/
def parentAndStep? (l : Location) : Option (Location × Step) :=
  l.lastStep?.map fun s => (⟨l.steps.dropLast⟩, s)

def parent? (l : Location) : Option Location := l.parentAndStep?.map (·.1)

def child (l : Location) (group : String) (index : Nat) : Location := ⟨l.steps ++ [⟨group, index⟩]⟩

/-- The location at the end of a path that starts here. -/
def along (l : Location) (path : List Step) : Location := ⟨l.steps ++ path⟩

/-- The same location with another last index. -/
def reindexed? (l : Location) (index : Nat) : Option Location :=
  l.parentAndStep?.map fun (parent, s) => parent.child s.group index

/-- A location with the same parent. -/
def beside? (l : Location) (group : String) (index : Nat) : Option Location :=
  l.parent?.map (·.child group index)

/-- The root is `/`; names of groups are written as they are. -/
def display (l : Location) : String :=
  if l.isRoot then "/" else String.join (l.steps.map Step.display)

/-- `m` is `l` or lies below it. -/
def contains (l m : Location) : Bool := l.steps.isPrefixOf m.steps

/-- Walks down `removed` and a path side by side until they part. Where
they part at the last step of `removed`, within one group, the path may be
that of a later sibling. -/
def stepsAfterRemoval : (removed steps : List Step) → Option (List Step)
  | [], _ => none
  | _ :: _, [] => some []
  | r :: rs, s :: ss =>
    if s = r then (stepsAfterRemoval rs ss).map (s :: ·)
    else if rs = [] ∧ s.group = r.group ∧ r.index < s.index then
      some ({ s with index := s.index - 1 } :: ss)
    else some (s :: ss)

/-- How this location reads after the node at `removed` is gone; none if it
went with that node. -/
def afterRemoval (l removed : Location) : Option Location :=
  (stepsAfterRemoval removed.steps l.steps).map Location.mk

/-! ## The last step -/

@[simp] theorem parentAndStep?_root : root.parentAndStep? = none := rfl

@[simp] theorem parentAndStep?_child (l : Location) (group : String) (index : Nat) :
    (l.child group index).parentAndStep? = some (l, ⟨group, index⟩) := by
  simp [parentAndStep?, lastStep?, child]

/-- A location without a last step is the root. -/
theorem parentAndStep?_eq_none_iff {l : Location} : l.parentAndStep? = none ↔ l = root := by
  obtain ⟨steps⟩ := l
  simp [parentAndStep?, lastStep?, root]

/-- The last step leads from the parent back to the location. -/
theorem parentAndStep?_eq_some_iff {l parent : Location} {s : Step} :
    l.parentAndStep? = some (parent, s) ↔ l = parent.child s.group s.index := by
  constructor
  · intro h
    obtain ⟨steps⟩ := l
    simp only [parentAndStep?, lastStep?, Option.map_eq_some_iff] at h
    obtain ⟨s', hs, h⟩ := h
    cases h
    obtain ⟨init, rfl⟩ := List.getLast?_eq_some_iff.1 hs
    simp [child]
  · rintro rfl
    simp

theorem child_inj {l m : Location} {group group' : String} {i j : Nat}
    (h : l.child group i = m.child group' j) : l = m ∧ group = group' ∧ i = j := by
  have hlast := congrArg parentAndStep? h
  rw [parentAndStep?_child, parentAndStep?_child] at hlast
  cases hlast
  exact ⟨rfl, rfl, rfl⟩

/-! ## Paths from here on -/

theorem along_nil (l : Location) : l.along [] = l := by
  simp [along]

theorem along_child (l : Location) (s : Step) (path : List Step) :
    (l.child s.group s.index).along path = l.along (s :: path) := by
  simp [along, child]

theorem along_along (l : Location) (path path' : List Step) :
    (l.along path).along path' = l.along (path ++ path') := by
  simp [along]

theorem along_injective (l : Location) {path path' : List Step} (h : l.along path = l.along path') :
    path = path' := by
  simpa [along] using h

/-! ## Containment -/

theorem contains_iff {l m : Location} : l.contains m = true ↔ l.steps <+: m.steps := by
  simp [contains]

theorem contains_refl (l : Location) : l.contains l = true :=
  contains_iff.2 (List.prefix_refl _)

/-- Just the locations in the removed subtree are gone. -/
theorem afterRemoval_eq_none_iff {l removed : Location} :
    l.afterRemoval removed = none ↔ removed.contains l = true := by
  have go : ∀ rs ss : List Step, stepsAfterRemoval rs ss = none ↔ rs <+: ss := by
    intro rs
    induction rs with
    | nil => simp [stepsAfterRemoval]
    | cons r rs ih =>
      intro ss
      cases ss with
      | nil => simp [stepsAfterRemoval]
      | cons s ss =>
        rw [stepsAfterRemoval]
        split
        · next h => simp [h, ih]
        · next h => split <;> simp [List.cons_prefix_cons, Ne.symm h]
  rw [contains_iff, ← go, afterRemoval, Option.map_eq_none_iff]

end Location

/-! ## Order -/

instance : Ord Step := ⟨compareLex (compareOn Step.group) (compareOn Step.index)⟩

instance : Std.TransOrd Step :=
  inferInstanceAs (Std.TransCmp (compareLex (compareOn Step.group) (compareOn Step.index)))

theorem Step.compare_eq_eq_iff {s t : Step} : compare s t = .eq ↔ s = t := by
  obtain ⟨g, i⟩ := s
  obtain ⟨h, j⟩ := t
  show compareLex _ _ _ _ = _ ↔ _
  simp [compareLex, compareOn, Ordering.then_eq_eq]

instance : Std.LawfulEqOrd Step where
  compare_self := Step.compare_eq_eq_iff.2 rfl
  eq_of_compare := Step.compare_eq_eq_iff.1

instance : Ord Location := ⟨compareOn Location.steps⟩

instance : Std.TransOrd Location := inferInstanceAs (Std.TransCmp (compareOn Location.steps))

theorem Location.compare_eq_eq_iff {l m : Location} : compare l m = .eq ↔ l = m := by
  obtain ⟨ss⟩ := l
  obtain ⟨ts⟩ := m
  show compare ss ts = _ ↔ _
  simp

instance : Std.LawfulEqOrd Location where
  compare_self := Location.compare_eq_eq_iff.2 rfl
  eq_of_compare := Location.compare_eq_eq_iff.1

end BlockEdit
