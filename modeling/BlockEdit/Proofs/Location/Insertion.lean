/-
How a location reads after a node came in at another: the siblings from
there on have moved up, and all else reads as before. It is what a removal
at the same place takes back (`afterRemoval_afterInsertion`).
-/
import BlockEdit.Location

namespace BlockEdit.Location

/-- Walks down `inserted` and a path side by side. Within the group that the node came
into, the path may be that of a sibling that made room for it. -/
def stepsAfterInsertion : (inserted steps : List Step) → List Step
  | [], steps => steps
  | _ :: _, [] => []
  | r :: rs, s :: ss =>
    if rs = [] then
      if s.group = r.group ∧ r.index ≤ s.index then { s with index := s.index + 1 } :: ss
      else s :: ss
    else if s = r then s :: stepsAfterInsertion rs ss
    else s :: ss

/-- How this location reads after a node came in at `inserted`. -/
def afterInsertion (l inserted : Location) : Location :=
  ⟨stepsAfterInsertion inserted.steps l.steps⟩

theorem stepsAfterInsertion_append (path : List Step) (r : Step) (steps : List Step) :
    stepsAfterInsertion (path ++ [r]) (path ++ steps) = path ++ stepsAfterInsertion [r] steps := by
  induction path with
  | nil => rfl
  | cons s path ih =>
    rw [List.cons_append, List.cons_append, stepsAfterInsertion, if_neg (by simp), if_pos rfl, ih]
    rfl

section
variable (l : Location) {s : Step} (path : List Step)

theorem along_afterInsertion : (l.along path).afterInsertion (l.child s.group s.index) =
    l.along (stepsAfterInsertion [s] path) :=
  congrArg mk (stepsAfterInsertion_append l.steps s path)

/-- The parent is where it was. -/
theorem self_afterInsertion : l.afterInsertion (l.child s.group s.index) = l := by
  have h := along_afterInsertion l (s := s) []
  simpa [along, stepsAfterInsertion] using h

/-- From the index on, siblings of the new node and what is below them move up. -/
theorem along_afterInsertion_of_le {i : Nat} (h : s.index ≤ i) :
    ((l.child s.group i).along path).afterInsertion (l.child s.group s.index) =
      (l.child s.group (i + 1)).along path := by
  have hlow := along_child l ⟨s.group, i⟩ path
  have hhigh := along_child l ⟨s.group, i + 1⟩ path
  dsimp only at hlow hhigh
  rw [hlow, along_afterInsertion, stepsAfterInsertion, if_pos rfl, if_pos ⟨rfl, h⟩, hhigh]

/-- Children in front of the new node, or in other groups, and what is below them stay. -/
theorem along_afterInsertion_of_not {group : String} {i : Nat}
    (h : ¬ (group = s.group ∧ s.index ≤ i)) :
    ((l.child group i).along path).afterInsertion (l.child s.group s.index) =
      (l.child group i).along path := by
  have hchild := along_child l ⟨group, i⟩ path
  dsimp only at hchild
  rw [hchild, along_afterInsertion, stepsAfterInsertion, if_pos rfl, if_neg h]

end

/-! ## Against a removal -/

theorem stepsAfterRemoval_stepsAfterInsertion {rs : List Step} (h : rs ≠ []) (ss : List Step) :
    stepsAfterRemoval rs (stepsAfterInsertion rs ss) = some ss := by
  induction rs generalizing ss with
  | nil => exact absurd rfl h
  | cons r rs ih =>
    cases ss with
    | nil => rfl
    | cons s ss =>
      rw [stepsAfterInsertion]
      by_cases hrs : rs = []
      · rw [if_pos hrs]
        split
        · next hs =>
          have hne : ({ s with index := s.index + 1 } : Step) ≠ r := by
            rintro rfl
            exact Nat.not_succ_le_self _ hs.2
          have hlater : rs = [] ∧ s.group = r.group ∧ r.index < s.index + 1 :=
            ⟨hrs, hs.1, Nat.lt_succ_of_le hs.2⟩
          rw [stepsAfterRemoval, if_neg hne, if_pos hlater]
          rfl
        · next hs =>
          have hne : s ≠ r := by
            rintro rfl
            exact hs ⟨rfl, Nat.le_refl _⟩
          rw [stepsAfterRemoval, if_neg hne, if_neg]
          exact fun hlt => hs ⟨hlt.2.1, Nat.le_of_lt hlt.2.2⟩
      · rw [if_neg hrs]
        split
        · next hs => rw [stepsAfterRemoval, if_pos hs, ih hrs, Option.map_some]
        · next hs =>
          rw [stepsAfterRemoval, if_neg hs, if_neg]
          exact fun hlt => hrs hlt.1

/-- To insert a node and take it out again moves no location. -/
theorem afterRemoval_afterInsertion {l inserted : Location} (h : inserted ≠ root) :
    (l.afterInsertion inserted).afterRemoval inserted = some l := by
  have hsteps : inserted.steps ≠ [] := fun he => h (congrArg mk he)
  rw [afterRemoval, afterInsertion, stepsAfterRemoval_stepsAfterInsertion hsteps, Option.map_some]

end BlockEdit.Location
