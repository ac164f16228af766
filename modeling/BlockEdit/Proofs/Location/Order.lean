/-
A removal does not change how the locations that are left lie to each other.
Those that read anew are the later siblings of the removed node and what is
below them, and all of these close up alike, so nothing comes to stand ahead
of what it stood behind and nothing moves below another node.

Two paths are compared where they part. Either one ends there, or they go on
by different steps from one node; and a removal changes steps from one node
only, its parent (`Location.stepsAfterRemoval_cons_cons`), where it keeps the
order of the children that stay (`Step.compare_afterRemoval`).
-/
import BlockEdit.Proofs.Location.Removal
import Mathlib.Data.List.Forall2

namespace BlockEdit

/-! ## Children of one node -/

namespace Step

variable {s t r : Step}

theorem compare_eq (s t : Step) :
    compare s t = (compare s.group t.group).then (compare s.index t.index) := rfl

theorem index_afterRemoval (s r : Step) : (s.afterRemoval r).index =
    if s.group = r.group ∧ r.index < s.index then s.index - 1 else s.index := by
  unfold afterRemoval
  split <;> rfl

/-- Among the children of one group that stay, later ones stay later. -/
theorem index_afterRemoval_lt_iff (hs : s ≠ r) (ht : t ≠ r) (h : s.group = t.group) :
    (s.afterRemoval r).index < (t.afterRemoval r).index ↔ s.index < t.index := by
  by_cases hgroup : t.group = r.group
  · have hs' : s.index ≠ r.index := fun hi => hs (eq_of_group_of_index (h.trans hgroup) hi)
    have ht' : t.index ≠ r.index := fun hi => ht (eq_of_group_of_index hgroup hi)
    simp only [index_afterRemoval, h, hgroup, true_and]
    split <;> split <;> omega
  · simp only [index_afterRemoval, h, hgroup, false_and, if_false]

theorem compare_afterRemoval (hs : s ≠ r) (ht : t ≠ r) :
    compare (s.afterRemoval r) (t.afterRemoval r) = compare s t := by
  rw [compare_eq, compare_eq, group_afterRemoval, group_afterRemoval]
  by_cases h : s.group = t.group
  · have hlt := index_afterRemoval_lt_iff hs ht h
    have hgt := index_afterRemoval_lt_iff ht hs h.symm
    have hindex : compare (s.afterRemoval r).index (t.afterRemoval r).index =
        compare s.index t.index := by
      simp only [Nat.compare_eq_ite_lt, hlt, hgt]
    rw [hindex]
  · cases hc : compare s.group t.group with
    | eq => exact absurd (Std.LawfulEqCmp.eq_of_compare hc) h
    | lt | gt => rfl

/-- The step leads into the same group, to the same index or to the one before, if there is
one before. -/
def KeepsOrLowers (s' s : Step) : Prop :=
  s'.group = s.group ∧ (s'.index = s.index ∨ s'.index + 1 = s.index)

theorem keepsOrLowers_refl (s : Step) : s.KeepsOrLowers s := ⟨rfl, .inl rfl⟩

theorem keepsOrLowers_afterRemoval (s r : Step) : (s.afterRemoval r).KeepsOrLowers s := by
  refine ⟨group_afterRemoval s r, ?_⟩
  rw [index_afterRemoval]
  split <;> omega

end Step

namespace Location

/-! ## Two paths -/

/-- The two paths `ss'` and `ts'` lie to each other as `ss` and `ts` do. -/
structure LieAlike (ss ts ss' ts' : List Step) : Prop where
  order : compare ss' ts' = compare ss ts
  ancestry : ss' <+: ts' ↔ ss <+: ts

theorem compare_cons_cons (s t : Step) (ss ts : List Step) :
    compare (s :: ss) (t :: ts) = (compare s t).then (compare ss ts) :=
  List.compareLex_cons_cons

namespace LieAlike

variable {s t s' t' : Step} {ss ts ss' ts' : List Step}

theorem refl (ss ts : List Step) : LieAlike ss ts ss ts := ⟨rfl, Iff.rfl⟩

/-- A path that ends is ahead of any that goes on. -/
theorem nil_cons : LieAlike [] (t :: ts) [] (t' :: ts') :=
  ⟨rfl, iff_of_true List.nil_prefix List.nil_prefix⟩

theorem cons_nil : LieAlike (s :: ss) [] (s' :: ss') [] :=
  ⟨rfl, by simp only [List.prefix_nil, List.cons_ne_nil]⟩

theorem cons (h : LieAlike ss ts ss' ts') (s : Step) :
    LieAlike (s :: ss) (s :: ts) (s :: ss') (s :: ts') where
  order := by rw [compare_cons_cons, compare_cons_cons, h.order]
  ancestry := by rw [List.prefix_cons_inj, List.prefix_cons_inj, h.ancestry]

/-- Where paths part, what comes behind is of no account. -/
theorem of_ne (h : s ≠ t) : LieAlike (s :: ss) (t :: ts) (s :: ss') (t :: ts') where
  order := by
    rw [compare_cons_cons, compare_cons_cons]
    cases hc : compare s t with
    | eq => exact absurd (Step.compare_eq_eq_iff.1 hc) h
    | lt | gt => rfl
  ancestry := by simp only [List.cons_prefix_cons, h, false_and]

/-- Steps that compare as before may take the place of others. -/
theorem of_heads (h : compare s' t' = compare s t) :
    LieAlike (s :: ss) (t :: ts) (s' :: ss) (t' :: ts) where
  order := by rw [compare_cons_cons, compare_cons_cons, h]
  ancestry := by
    rw [List.cons_prefix_cons, List.cons_prefix_cons, ← Step.compare_eq_eq_iff, h,
      Step.compare_eq_eq_iff]

end LieAlike

/-! ## Two paths and a removal -/

variable {r s : Step} {rs ss ts ss' ts' : List Step}

/-- A path that goes through the removed node's ancestor by another step than the removed
node's reads anew in that step at most, and only if the ancestor is the parent. -/
theorem stepsAfterRemoval_cons_cons (h : stepsAfterRemoval (r :: rs) (s :: ss) = some ts) :
    (s = r ∧ rs ≠ [] ∧ ∃ ts', stepsAfterRemoval rs ss = some ts' ∧ ts = r :: ts') ∨
      (s ≠ r ∧ ts = (if rs = [] then s.afterRemoval r else s) :: ss) := by
  by_cases hs : s = r
  · subst hs
    rw [stepsAfterRemoval, if_pos rfl] at h
    obtain ⟨ts', hts', rfl⟩ := Option.map_eq_some_iff.1 h
    refine .inl ⟨rfl, ?_, ts', hts', rfl⟩
    rintro rfl
    cases hts'
  · right
    by_cases hrs : rs = []
    · subst hrs
      rw [stepsAfterRemoval_singleton hs] at h
      cases h
      exact ⟨hs, by rw [if_pos rfl]⟩
    · rw [stepsAfterRemoval, if_neg hs, if_neg fun hlast => hrs hlast.1] at h
      cases h
      exact ⟨hs, by rw [if_neg hrs]⟩

theorem lieAlike_of_stepsAfterRemoval (hss : stepsAfterRemoval rs ss = some ss')
    (hts : stepsAfterRemoval rs ts = some ts') : LieAlike ss ts ss' ts' := by
  induction rs generalizing ss ts ss' ts' with
  | nil => cases hss
  | cons r rs ih =>
    cases ss with
    | nil =>
      cases hss
      cases ts with
      | nil =>
        cases hts
        exact .refl _ _
      | cons t ts =>
        rcases stepsAfterRemoval_cons_cons hts with ⟨-, -, _, -, rfl⟩ | ⟨-, rfl⟩ <;>
          exact .nil_cons
    | cons s ss =>
      cases ts with
      | nil =>
        cases hts
        rcases stepsAfterRemoval_cons_cons hss with ⟨-, -, _, -, rfl⟩ | ⟨-, rfl⟩ <;>
          exact .cons_nil
      | cons t ts =>
        rcases stepsAfterRemoval_cons_cons hss with ⟨rfl, hrs, ss', hss', rfl⟩ | ⟨hs, rfl⟩ <;>
          rcases stepsAfterRemoval_cons_cons hts with ⟨rfl, hrs', ts', hts', rfl⟩ | ⟨ht, rfl⟩
        · exact (ih hss' hts').cons _
        · rw [if_neg hrs]
          exact .of_ne (Ne.symm ht)
        · rw [if_neg hrs']
          exact .of_ne hs
        · refine .of_heads ?_
          split
          · exact Step.compare_afterRemoval hs ht
          · rfl

theorem forall₂_of_stepsAfterRemoval (h : stepsAfterRemoval rs ss = some ss') :
    List.Forall₂ Step.KeepsOrLowers ss' ss := by
  induction rs generalizing ss ss' with
  | nil => cases h
  | cons r rs ih =>
    have hsame : ∀ ss : List Step, List.Forall₂ Step.KeepsOrLowers ss ss := fun ss =>
      List.forall₂_same.2 fun s _ => s.keepsOrLowers_refl
    cases ss with
    | nil =>
      cases h
      exact .nil
    | cons s ss =>
      rcases stepsAfterRemoval_cons_cons h with ⟨rfl, -, ts', hts', rfl⟩ | ⟨-, rfl⟩
      · exact .cons s.keepsOrLowers_refl (ih hts')
      · refine .cons ?_ (hsame ss)
        split
        · exact s.keepsOrLowers_afterRemoval r
        · exact s.keepsOrLowers_refl

/-! ## Two locations and a removal -/

theorem exists_afterRemoval {l removed : Location} (h : removed.contains l = false) :
    ∃ l', l.afterRemoval removed = some l' := by
  refine Option.ne_none_iff_exists'.1 fun hnone => ?_
  rw [afterRemoval_eq_none_iff, h] at hnone
  cases hnone

/-- **A removal keeps all order.** Locations that are not within the removed subtree have new
readings, which are equal, ahead of each other or above each other just when they were before.
Each leads as deep as it did, and through the same groups, at every step to the same index or to
the one before it. -/
theorem afterRemoval_embeds {removed l m : Location} (hl : removed.contains l = false)
    (hm : removed.contains m = false) :
    ∃ l' m', l.afterRemoval removed = some l' ∧ m.afterRemoval removed = some m' ∧
      (l = m ↔ l' = m') ∧
      (compare l m = .lt ↔ compare l' m' = .lt) ∧
      (l.contains m = true ↔ l'.contains m' = true) ∧
      l'.depth = l.depth ∧ List.Forall₂ Step.KeepsOrLowers l'.steps l.steps := by
  obtain ⟨l', hl'⟩ := exists_afterRemoval hl
  obtain ⟨m', hm'⟩ := exists_afterRemoval hm
  obtain ⟨ss, hss, rfl⟩ := Option.map_eq_some_iff.1 hl'
  obtain ⟨ts, hts, rfl⟩ := Option.map_eq_some_iff.1 hm'
  have halike := lieAlike_of_stepsAfterRemoval hss hts
  have hcompare : compare (Location.mk ss) (Location.mk ts) = compare l m := halike.order
  have hsteps := forall₂_of_stepsAfterRemoval hss
  refine ⟨_, _, hl', hm', ?_, ?_, ?_, hsteps.length_eq, hsteps⟩
  · rw [← compare_eq_eq_iff, ← compare_eq_eq_iff, hcompare]
  · rw [hcompare]
  · rw [contains_iff, contains_iff, halike.ancestry]

/-- Without the item at 9, what is below the item at 10 is still ahead of the item at 11. -/
theorem afterRemoval_embeds_items :
    (root.child "items" 9).contains ((root.child "items" 10).child "notes" 0) = false ∧
    (root.child "items" 9).contains (root.child "items" 11) = false ∧
    compare ((root.child "items" 9).child "notes" 0) (root.child "items" 10) = .lt := by
  have hl : (root.child "items" 9).contains ((root.child "items" 10).child "notes" 0) = false := by
    decide
  have hm : (root.child "items" 9).contains (root.child "items" 11) = false := by decide
  have hbefore : compare ((root.child "items" 10).child "notes" 0)
      (root.child "items" 11) = .lt := by decide
  obtain ⟨l', m', hl', hm', -, hlt, -⟩ := afterRemoval_embeds hl hm
  have hnotes : l' = (root.child "items" 9).child "notes" 0 := Option.some.inj (hl'.symm.trans rfl)
  have hitem : m' = root.child "items" 10 := Option.some.inj (hm'.symm.trans rfl)
  have hafter := hlt.1 hbefore
  rw [hnotes, hitem] at hafter
  exact ⟨hl, hm, hafter⟩

end Location
end BlockEdit
