/-
How a location reads after a removal, said by the parent of the removed node.
A location that does not lead through the parent stays, and so does the
parent. One that goes on from the parent changes at most in its next step
(`Step.afterRemoval`): the siblings behind the removed one have moved down.
`afterRemoval_child_cases` says that there is no more to it.

What a removal does to a location an insertion at the same place takes back
(`afterRemoval_eq_some_iff`), so no two locations come to read alike.
-/
import BlockEdit.Proofs.Location.Insertion
import Mathlib.Data.List.Basic

namespace BlockEdit

/-- How a step reads after the child by another step from the same node is gone. -/
def Step.afterRemoval (s removed : Step) : Step :=
  if s.group = removed.group ∧ removed.index < s.index then { s with index := s.index - 1 } else s

theorem Step.afterRemoval_of_later {s removed : Step}
    (h : s.group = removed.group ∧ removed.index < s.index) :
    s.afterRemoval removed = { s with index := s.index - 1 } := if_pos h

theorem Step.afterRemoval_of_not_later {s removed : Step}
    (h : ¬ (s.group = removed.group ∧ removed.index < s.index)) : s.afterRemoval removed = s :=
  if_neg h

@[simp] theorem Step.group_afterRemoval (s removed : Step) :
    (s.afterRemoval removed).group = s.group := by
  unfold Step.afterRemoval
  split <;> rfl

namespace Location

/-! ## Paths -/

/-- What does not lead through the parent stays. -/
theorem stepsAfterRemoval_of_not_within {path steps : List Step} (h : ¬ path <+: steps) (r : Step) :
    stepsAfterRemoval (path ++ [r]) steps = some steps := by
  induction path generalizing steps with
  | nil => exact absurd List.nil_prefix h
  | cons p path ih =>
    cases steps with
    | nil => rfl
    | cons s steps =>
      rw [List.cons_append, stepsAfterRemoval]
      split
      · next hs =>
        have hrest : ¬ path <+: steps := fun hp => h (List.cons_prefix_cons.2 ⟨hs.symm, hp⟩)
        rw [ih hrest, Option.map_some]
      · next hs => rw [if_neg fun hlast => by simp at hlast]

theorem stepsAfterRemoval_append (path : List Step) (r : Step) (steps : List Step) :
    stepsAfterRemoval (path ++ [r]) (path ++ steps) =
      (stepsAfterRemoval [r] steps).map (path ++ ·) := by
  induction path with
  | nil => simp
  | cons p path ih =>
    rw [List.cons_append, List.cons_append, stepsAfterRemoval, if_pos rfl, ih, Option.map_map]
    rfl

theorem stepsAfterRemoval_singleton {r s : Step} (h : s ≠ r) (steps : List Step) :
    stepsAfterRemoval [r] (s :: steps) = some (s.afterRemoval r :: steps) := by
  rw [stepsAfterRemoval, if_neg h, Step.afterRemoval]
  split
  · next hs => rw [if_pos hs.2]
  · next hs => rw [if_neg fun hlater => hs ⟨rfl, hlater⟩]

/-! ## Below a location -/

theorem eq_root_or_exists_child (l : Location) :
    l = root ∨ ∃ (parent : Location) (s : Step), l = parent.child s.group s.index := by
  cases h : l.parentAndStep? with
  | none => exact .inl (parentAndStep?_eq_none_iff.1 h)
  | some e => exact .inr ⟨e.1, e.2, parentAndStep?_eq_some_iff.1 h⟩

theorem along_singleton (l : Location) (s : Step) : l.along [s] = l.child s.group s.index := rfl

theorem along_concat (l : Location) (path : List Step) (s : Step) :
    l.along (path ++ [s]) = (l.along path).child s.group s.index := by
  rw [← along_along, along_singleton]

theorem contains_iff_exists_along {l m : Location} :
    l.contains m = true ↔ ∃ path, m = l.along path := by
  rw [contains_iff]
  constructor
  · rintro ⟨path, hpath⟩
    exact ⟨path, congrArg mk hpath.symm⟩
  · rintro ⟨path, rfl⟩
    exact List.prefix_append ..

theorem contains_child {l m : Location} (h : l.contains m = true) (s : Step) :
    l.contains (m.child s.group s.index) = true :=
  contains_iff.2 ((contains_iff.1 h).trans (List.prefix_append ..))

/-- What contains a child is the child or contains the parent. -/
theorem eq_or_contains_of_contains_child {l m : Location} {s : Step}
    (h : l.contains (m.child s.group s.index) = true) :
    l = m.child s.group s.index ∨ l.contains m = true := by
  obtain ⟨path, hpath⟩ := contains_iff_exists_along.1 h
  rcases List.eq_nil_or_concat path with rfl | ⟨init, u, rfl⟩
  · exact .inl (hpath.trans l.along_nil).symm
  · rw [List.concat_eq_append, along_concat] at hpath
    exact .inr (contains_iff_exists_along.2 ⟨init, (child_inj hpath).1⟩)

theorem not_contains_of_child {l m : Location} {s : Step}
    (h : l.contains (m.child s.group s.index) = false) : l.contains m = false := by
  rw [← Bool.not_eq_true] at h ⊢
  exact fun hm => h (contains_child hm s)

theorem child_not_contains (l : Location) (s : Step) :
    (l.child s.group s.index).contains l = false := by
  rw [← Bool.not_eq_true, contains_iff]
  intro h
  have hlength : l.steps.length + 1 ≤ l.steps.length := by simpa [child] using h.length_le
  omega

/-! ## Locations, by the parent of the removed node -/

variable {l m parent : Location} {r s : Step}

theorem afterRemoval_child_of_not_contains (h : parent.contains l = false) (r : Step) :
    l.afterRemoval (parent.child r.group r.index) = some l := by
  have hnot : ¬ parent.steps <+: l.steps := fun hp => by
    rw [contains_iff.2 hp] at h
    cases h
  exact congrArg (Option.map mk) (stepsAfterRemoval_of_not_within hnot r)

theorem along_afterRemoval_child (parent : Location) (r : Step) (path : List Step) :
    (parent.along path).afterRemoval (parent.child r.group r.index) =
      (stepsAfterRemoval [r] path).map parent.along := by
  rw [afterRemoval]
  show (stepsAfterRemoval (parent.steps ++ [r]) (parent.steps ++ path)).map mk = _
  rw [stepsAfterRemoval_append, Option.map_map]
  rfl

theorem self_afterRemoval_child (parent : Location) (r : Step) :
    parent.afterRemoval (parent.child r.group r.index) = some parent := by
  have h := along_afterRemoval_child parent r []
  rwa [along_nil, stepsAfterRemoval, Option.map_some, along_nil] at h

theorem root_afterRemoval_child (parent : Location) (r : Step) :
    root.afterRemoval (parent.child r.group r.index) = some root := by
  obtain ⟨steps⟩ := parent
  cases steps <;> rfl

theorem along_cons_afterRemoval_child (parent : Location) (h : s ≠ r) (path : List Step) :
    (parent.along (s :: path)).afterRemoval (parent.child r.group r.index) =
      some (parent.along (s.afterRemoval r :: path)) := by
  rw [along_afterRemoval_child, stepsAfterRemoval_singleton h, Option.map_some]

/-- A location that a removal leaves is out of the parent's subtree, or is the parent, or goes
on from the parent by another step. -/
theorem afterRemoval_child_cases (h : l.afterRemoval (parent.child r.group r.index) = some m) :
    (parent.contains l = false ∧ m = l) ∨ (l = parent ∧ m = parent) ∨
      ∃ s path, s ≠ r ∧ l = parent.along (s :: path) ∧
        m = parent.along (s.afterRemoval r :: path) := by
  cases hc : parent.contains l with
  | false =>
    rw [afterRemoval_child_of_not_contains hc] at h
    cases h
    exact .inl ⟨rfl, rfl⟩
  | true =>
    right
    obtain ⟨path, rfl⟩ := contains_iff_exists_along.1 hc
    cases path with
    | nil =>
      rw [along_nil, self_afterRemoval_child] at h
      cases h
      exact .inl ⟨along_nil _, rfl⟩
    | cons s path =>
      by_cases hs : s = r
      · rw [along_afterRemoval_child, hs, stepsAfterRemoval, if_pos rfl] at h
        cases h
      · rw [along_cons_afterRemoval_child parent hs] at h
        cases h
        exact .inr ⟨s, path, hs, rfl, rfl⟩

/-- A child's location reads on from its parent's, but for a sibling of the removed node. -/
theorem child_afterRemoval_child_cases
    (h : (l.child s.group s.index).afterRemoval (parent.child r.group r.index) = some m) :
    (l = parent ∧ s ≠ r ∧ m = parent.child s.group (s.afterRemoval r).index) ∨
      (l ≠ parent ∧ ∃ l', l.afterRemoval (parent.child r.group r.index) = some l' ∧
        m = l'.child s.group s.index) := by
  have hout : parent.contains l = false → m = l.child s.group s.index →
      l ≠ parent ∧ ∃ l', l.afterRemoval (parent.child r.group r.index) = some l' ∧
        m = l'.child s.group s.index := by
    intro hc hm
    refine ⟨?_, l, afterRemoval_child_of_not_contains hc r, hm⟩
    rintro rfl
    rw [contains_refl] at hc
    cases hc
  rcases afterRemoval_child_cases h with ⟨hc, rfl⟩ | ⟨rfl, rfl⟩ | ⟨u, path, hu, hl, rfl⟩
  · exact .inr (hout (not_contains_of_child hc) rfl)
  · exact .inr (hout (child_not_contains l s) rfl)
  · rcases List.eq_nil_or_concat' path with rfl | ⟨init, last, rfl⟩
    · left
      rw [along_singleton] at hl
      obtain ⟨rfl, hgroup, hindex⟩ := child_inj hl
      obtain rfl : s = u := Step.eq_of_group_of_index hgroup hindex
      refine ⟨rfl, hu, ?_⟩
      rw [along_singleton, Step.group_afterRemoval]
    · right
      rw [← List.cons_append, along_concat] at hl
      obtain ⟨rfl, hgroup, hindex⟩ := child_inj hl
      refine ⟨?_, _, along_cons_afterRemoval_child parent hu init, ?_⟩
      · intro he
        exact List.cons_ne_nil u init (parent.along_injective (he.trans parent.along_nil.symm))
      · rw [← List.cons_append, along_concat, hgroup, hindex]

/-! ## Against an insertion -/

theorem stepsAfterInsertion_of_stepsAfterRemoval {rs ss ts : List Step}
    (h : stepsAfterRemoval rs ss = some ts) : stepsAfterInsertion rs ts = ss := by
  induction rs generalizing ss ts with
  | nil => cases h
  | cons r rs ih =>
    cases ss with
    | nil =>
      cases h
      rfl
    | cons s ss =>
      rw [stepsAfterRemoval] at h
      split at h
      · next hs =>
        obtain ⟨ts, hts, rfl⟩ := Option.map_eq_some_iff.1 h
        have hrs : rs ≠ [] := by
          rintro rfl
          cases hts
        rw [stepsAfterInsertion, if_neg hrs, if_pos hs, ih hts]
      · next hs =>
        split at h
        · next hlater =>
          cases h
          obtain ⟨hrs, hgroup, hlt⟩ := hlater
          have hle : r.index ≤ s.index - 1 := by omega
          have hback : s.index - 1 + 1 = s.index := by omega
          rw [stepsAfterInsertion, if_pos hrs, if_pos ⟨hgroup, hle⟩, hback]
        · next hlater =>
          cases h
          by_cases hrs : rs = []
          · -- a sibling at the index would be the removed node, and a later one has moved down
            have hstays : ¬ (s.group = r.group ∧ r.index ≤ s.index) := by
              rintro ⟨hgroup, hle⟩
              have hne : s.index ≠ r.index := fun hi => hs (Step.eq_of_group_of_index hgroup hi)
              exact hlater ⟨hrs, hgroup, by omega⟩
            rw [stepsAfterInsertion, if_pos hrs, if_neg hstays]
          · rw [stepsAfterInsertion, if_neg hrs, if_neg hs]

/-- To remove a node and put one in its place moves no location that is left. -/
theorem afterRemoval_eq_some_iff {removed : Location} : l.afterRemoval removed = some m ↔
    removed ≠ root ∧ l = m.afterInsertion removed := by
  constructor
  · intro h
    refine ⟨?_, ?_⟩
    · rintro rfl
      cases h
    · obtain ⟨steps, hsteps, rfl⟩ := Option.map_eq_some_iff.1 h
      exact congrArg mk (stepsAfterInsertion_of_stepsAfterRemoval hsteps).symm
  · rintro ⟨hroot, rfl⟩
    exact afterRemoval_afterInsertion hroot

end Location
end BlockEdit
