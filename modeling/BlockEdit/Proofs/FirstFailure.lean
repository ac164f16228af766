/-
The first item of a list of which something holds (`IsFirst`). A search through
the list finds it (`find?_eq_some_iff_isFirst`), and a run through the list that
can fail fails as it does at the first item where it does (`mapM_eq_error_iff`).
-/
import Mathlib.Data.List.Basic

namespace BlockEdit

/-- The item is in the list, and it is the first there of which the property holds. -/
def IsFirst {α : Type} (P : α → Prop) (as : List α) (a : α) : Prop :=
  ∃ before after, as = before ++ a :: after ∧ (∀ b ∈ before, ¬ P b) ∧ P a

section
variable {α β ε : Type} {P : α → Prop} {f : α → Except ε β} {a b : α} {as : List α} {bs : List β}
  {e : ε}

theorem IsFirst.mem (h : IsFirst P as a) : a ∈ as := by
  obtain ⟨before, after, rfl, -, -⟩ := h
  exact List.mem_append_right _ List.mem_cons_self

theorem IsFirst.holds (h : IsFirst P as a) : P a := by
  obtain ⟨before, after, -, -, ha⟩ := h
  exact ha

theorem isFirst_cons_iff :
    IsFirst P (a :: as) b ↔ (P a ∧ b = a) ∨ (¬ P a ∧ IsFirst P as b) := by
  constructor
  · rintro ⟨before, after, has, hbefore, hb⟩
    cases before with
    | nil =>
      cases has
      exact .inl ⟨hb, rfl⟩
    | cons c before =>
      cases has
      obtain ⟨hc, hbefore⟩ := List.forall_mem_cons.1 hbefore
      exact .inr ⟨hc, before, after, rfl, hbefore, hb⟩
  · rintro (⟨ha, rfl⟩ | ⟨ha, before, after, rfl, hbefore, hb⟩)
    · exact ⟨[], as, rfl, nofun, ha⟩
    · exact ⟨a :: before, after, rfl, List.forall_mem_cons.2 ⟨ha, hbefore⟩, hb⟩

theorem not_isFirst_nil : ¬ IsFirst P [] a := by
  rintro ⟨before, after, h, -⟩
  simp at h

/-- Where there is one, there is a first. -/
theorem exists_isFirst (h : b ∈ as) (hb : P b) : ∃ a, IsFirst P as a := by
  induction as with
  | nil => cases h
  | cons a as ih =>
    by_cases ha : P a
    · exact ⟨a, isFirst_cons_iff.2 (.inl ⟨ha, rfl⟩)⟩
    · rcases List.mem_cons.1 h with rfl | h
      · exact absurd hb ha
      · obtain ⟨c, hc⟩ := ih h
        exact ⟨c, isFirst_cons_iff.2 (.inr ⟨ha, hc⟩)⟩

theorem find?_eq_some_iff_isFirst {p : α → Bool} :
    as.find? p = some a ↔ IsFirst (p · = true) as a := by
  rw [List.find?_eq_some_iff_append, IsFirst]
  constructor
  · rintro ⟨ha, before, after, has, hbefore⟩
    exact ⟨before, after, has, by simpa using hbefore, ha⟩
  · rintro ⟨before, after, has, hbefore, ha⟩
    exact ⟨ha, before, after, has, by simpa using hbefore⟩

theorem findSome?_eq_some_iff_isFirst {g : α → Option β} {c : β} :
    as.findSome? g = some c ↔ ∃ a, IsFirst (g · ≠ none) as a ∧ g a = some c := by
  rw [List.findSome?_eq_some_iff]
  constructor
  · rintro ⟨before, a, after, has, ha, hbefore⟩
    exact ⟨a, ⟨before, after, has, by simpa using hbefore, by simp [ha]⟩, ha⟩
  · rintro ⟨a, ⟨before, after, has, hbefore, -⟩, ha⟩
    exact ⟨before, a, after, has, ha, by simpa using hbefore⟩

/-! ## Runs that may fail -/

theorem mapM_cons_eq_ok_iff : (a :: as).mapM f = .ok bs ↔
    ∃ b rest, f a = .ok b ∧ as.mapM f = .ok rest ∧ bs = b :: rest := by
  rw [List.mapM_cons]
  cases f a with
  | error e => simp [bind, Except.bind]
  | ok b => cases as.mapM f <;> simp [bind, Except.bind, pure, Except.pure, eq_comm]

theorem mapM_cons_eq_error_iff : (a :: as).mapM f = .error e ↔
    f a = .error e ∨ ∃ b, f a = .ok b ∧ as.mapM f = .error e := by
  rw [List.mapM_cons]
  cases f a with
  | error e => simp [bind, Except.bind]
  | ok b => cases as.mapM f <;> simp [bind, Except.bind, pure, Except.pure]

theorem exists_ok_iff {x : Except ε β} : (∃ b, x = .ok b) ↔ ¬ ∃ e, x = .error e := by
  cases x <;> simp

theorem bind_pure_eq_ok_iff {x : Except ε α} {k : α → β} {c : β} :
    (x >>= fun a => pure (k a)) = .ok c ↔ ∃ a, x = .ok a ∧ c = k a := by
  cases x <;> simp [bind, Except.bind, pure, Except.pure, eq_comm]

theorem bind_pure_eq_error_iff {x : Except ε α} {k : α → β} :
    (x >>= fun a => pure (k a)) = .error e ↔ x = .error e := by
  cases x <;> simp [bind, Except.bind, pure, Except.pure]

/-- The first failure is the one that counts. -/
theorem mapM_eq_error_iff : as.mapM f = .error e ↔
    ∃ a, IsFirst (fun a => ∃ e, f a = .error e) as a ∧ f a = .error e := by
  induction as with
  | nil => simp [pure, Except.pure, not_isFirst_nil]
  | cons a as ih =>
    rw [mapM_cons_eq_error_iff, ih]
    simp only [isFirst_cons_iff]
    constructor
    · rintro (h | ⟨b, hb, c, hc, h⟩)
      · exact ⟨a, .inl ⟨⟨e, h⟩, rfl⟩, h⟩
      · exact ⟨c, .inr ⟨by simp [hb], hc⟩, h⟩
    · rintro ⟨c, ⟨-, rfl⟩ | ⟨ha, hc⟩, h⟩
      · exact .inl h
      · cases hfa : f a with
        | error e => exact absurd ⟨e, hfa⟩ ha
        | ok b => exact .inr ⟨b, rfl, c, hc, h⟩

end

end BlockEdit
