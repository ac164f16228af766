/-
What a type name stands for, without the search. A name leads to the members
of its alternative type, and `Grammar.reach` lists just what can be reached
so, step by step (`Grammar.mem_reach_iff`), although the search keeps one
list of seen names for all branches. So a type covers what a chain of
members ends in (`Grammar.covers_iff_exists_chain`), and covering is
transitive, also where types lead back to themselves.

The search ends with a set that holds the starting points and, with an item,
all that it leads to. That set has nothing but what can be reached, and it
has all of it, each item once.
-/
import BlockEdit.Grammar
import Mathlib.Data.List.Chain

namespace BlockEdit

/-! ## Depth-first search -/

section
variable {α : Type} [DecidableEq α] {next : α → List α} {unseen stack : List α} {a b : α}

/-- A search has nothing to do, or passes over an item, or lists it and goes on. -/
@[elab_as_elim]
theorem depthFirst_induct (next : α → List α) {P : List α → List α → Prop}
    (done : ∀ unseen, P unseen [])
    (seen : ∀ unseen a stack, a ∉ unseen → P unseen stack → P unseen (a :: stack))
    (found : ∀ unseen a stack, a ∈ unseen → P (without unseen a) (next a ++ stack) →
      P unseen (a :: stack)) (unseen stack : List α) : P unseen stack := by
  induction hlength : unseen.length using Nat.strongRecOn generalizing unseen stack with
  | _ k ih =>
    induction stack with
    | nil => exact done unseen
    | cons a stack ihs =>
      by_cases ha : a ∈ unseen
      · exact found unseen a stack ha (ih _ (hlength ▸ length_without_lt ha) _ _ rfl)
      · exact seen unseen a stack ha ihs

theorem mem_depthFirst_of_mem (hstack : a ∈ stack) (hunseen : a ∈ unseen) :
    a ∈ depthFirst next unseen stack := by
  induction unseen, stack using depthFirst_induct next with
  | done unseen => cases hstack
  | seen unseen b stack hb ih =>
    rw [depthFirst_cons_of_not_mem next stack hb]
    rcases List.mem_cons.1 hstack with rfl | hstack
    · exact absurd hunseen hb
    · exact ih hstack hunseen
  | found unseen b stack hb ih =>
    rw [depthFirst_cons_of_mem next stack hb, List.mem_cons]
    by_cases hab : a = b
    · exact .inl hab
    · have hstack := (List.mem_cons.1 hstack).resolve_left hab
      exact .inr (ih (List.mem_append_right _ hstack) (mem_without.2 ⟨hunseen, hab⟩))

/-- The search follows every item that it lists. -/
theorem mem_depthFirst_of_next (ha : a ∈ depthFirst next unseen stack) (hb : b ∈ next a)
    (hunseen : b ∈ unseen) : b ∈ depthFirst next unseen stack := by
  induction unseen, stack using depthFirst_induct next with
  | done unseen =>
    rw [depthFirst_nil] at ha
    cases ha
  | seen unseen c stack hc ih =>
    rw [depthFirst_cons_of_not_mem next stack hc] at ha ⊢
    exact ih ha hunseen
  | found unseen c stack hc ih =>
    rw [depthFirst_cons_of_mem next stack hc, List.mem_cons] at ha ⊢
    by_cases hbc : b = c
    · exact .inl hbc
    · right
      have hunseen := mem_without.2 ⟨hunseen, hbc⟩
      rcases ha with rfl | ha
      · exact mem_depthFirst_of_mem (List.mem_append_left _ hb) hunseen
      · exact ih ha hunseen

/-- What is listed was unseen before. -/
theorem mem_unseen_of_mem_depthFirst (h : a ∈ depthFirst next unseen stack) : a ∈ unseen := by
  induction unseen, stack using depthFirst_induct next with
  | done unseen =>
    rw [depthFirst_nil] at h
    cases h
  | seen unseen b stack hb ih =>
    rw [depthFirst_cons_of_not_mem next stack hb] at h
    exact ih h
  | found unseen b stack hb ih =>
    rw [depthFirst_cons_of_mem next stack hb, List.mem_cons] at h
    rcases h with rfl | h
    · exact hb
    · exact (mem_without.1 (ih h)).1

/-- Nothing is listed twice: an item is seen from when it is listed, whatever branch of the
search comes to it later. -/
theorem nodup_depthFirst (next : α → List α) (unseen stack : List α) :
    (depthFirst next unseen stack).Nodup := by
  induction unseen, stack using depthFirst_induct next with
  | done unseen =>
    rw [depthFirst_nil]
    exact List.nodup_nil
  | seen unseen b stack hb ih =>
    rw [depthFirst_cons_of_not_mem next stack hb]
    exact ih
  | found unseen b stack hb ih =>
    rw [depthFirst_cons_of_mem next stack hb]
    refine List.nodup_cons.2 ⟨fun hmem => ?_, ih⟩
    exact (mem_without.1 (mem_unseen_of_mem_depthFirst hmem)).2 rfl

/-- The search lists nothing but what can be reached. -/
theorem reaches_of_mem_depthFirst (h : b ∈ depthFirst next unseen stack) :
    ∃ a ∈ stack, Relation.ReflTransGen (fun x y => y ∈ next x) a b := by
  induction unseen, stack using depthFirst_induct next with
  | done unseen =>
    rw [depthFirst_nil] at h
    cases h
  | seen unseen c stack hc ih =>
    rw [depthFirst_cons_of_not_mem next stack hc] at h
    obtain ⟨a, ha, hpath⟩ := ih h
    exact ⟨a, List.mem_cons_of_mem _ ha, hpath⟩
  | found unseen c stack hc ih =>
    rw [depthFirst_cons_of_mem next stack hc, List.mem_cons] at h
    rcases h with rfl | h
    · exact ⟨b, List.mem_cons_self, .refl⟩
    · obtain ⟨a, ha, hpath⟩ := ih h
      rcases List.mem_append.1 ha with ha | ha
      · exact ⟨c, List.mem_cons_self, .head ha hpath⟩
      · exact ⟨a, List.mem_cons_of_mem _ ha, hpath⟩

end

namespace Grammar

variable {g : Grammar} {a b c : TypeName}

/-! ## Members of members -/

/-- The second name is a member of the alternative type of the first. -/
def LeadsTo (g : Grammar) (a b : TypeName) : Prop := b ∈ g.members a

theorem mem_mentioned_of_mem_members (h : b ∈ g.members a) : b ∈ g.mentioned := by
  have hdefined : ∃ type, (a, type) ∈ g.types := by
    cases hg : g.get? a with
    | none => simp [members, hg] at h
    | some type => exact ⟨type, Entries.mem_of_get? hg⟩
  obtain ⟨type, ha⟩ := hdefined
  exact List.mem_flatMap.2 ⟨_, ha, List.mem_cons_of_mem _ h⟩

/-- **Reachability.** Just what members lead to, in any number of steps, is listed. -/
theorem mem_reach_iff : b ∈ g.reach a ↔ Relation.ReflTransGen g.LeadsTo a b := by
  constructor
  · intro h
    obtain ⟨a', ha, hpath⟩ := reaches_of_mem_depthFirst h
    rwa [List.mem_singleton.1 ha] at hpath
  · intro h
    induction h with
    | refl => exact mem_depthFirst_of_mem (List.mem_singleton.2 rfl) List.mem_cons_self
    | tail hpath hlast ih =>
      exact mem_depthFirst_of_next ih hlast
        (List.mem_cons_of_mem _ (mem_mentioned_of_mem_members hlast))

theorem leadsTo_iff :
    g.LeadsTo a b ↔ ∃ members, g.get? a = some (.oneOf members) ∧ b ∈ members := by
  rw [LeadsTo, members]
  cases g.get? a with
  | none => simp
  | some type => cases type <;> simp

theorem covers_iff : g.covers a b = true ↔ Relation.ReflTransGen g.LeadsTo a b := by
  rw [covers, decide_eq_true_iff, mem_reach_iff]

theorem covers_refl (g : Grammar) (a : TypeName) : g.covers a a = true :=
  covers_iff.2 .refl

theorem covers_trans (hab : g.covers a b = true) (hbc : g.covers b c = true) :
    g.covers a c = true :=
  covers_iff.2 ((covers_iff.1 hab).trans (covers_iff.1 hbc))

/-- **Covering is reachability**, along circles too. A name covers just those names at the end of a
chain that starts with it and goes from an alternative type to one of its members at each step; the
chain may have no step, and names need not be defined. The search for such a chain keeps one list
of seen names for all its branches. It lists no name twice and none but the first and those that
the grammar mentions, so it ends; and the relation is reflexive and transitive for all that. -/
theorem covers_iff_exists_chain (g : Grammar) :
    (∀ expected actual, g.covers expected actual = true ↔ ∃ chain : List TypeName,
      List.IsChain (fun a b => ∃ members, g.get? a = some (.oneOf members) ∧ b ∈ members)
        (expected :: chain) ∧
      (expected :: chain).getLast (List.cons_ne_nil _ _) = actual) ∧
    (∀ name, (g.reach name).Nodup ∧ g.reach name ⊆ name :: g.mentioned) ∧
    (∀ a, g.covers a a = true) ∧
    ∀ a b c, g.covers a b = true → g.covers b c = true → g.covers a c = true := by
  refine ⟨fun expected actual => ?_, fun name => ?_, g.covers_refl, fun a b c => covers_trans⟩
  · have hsteps : g.LeadsTo = fun a b =>
        ∃ members, g.get? a = some (.oneOf members) ∧ b ∈ members :=
      funext₂ fun _ _ => propext leadsTo_iff
    rw [covers_iff, ← hsteps]
    constructor
    · exact List.exists_isChain_cons_of_relationReflTransGen
    · rintro ⟨chain, hchain, hlast⟩
      exact List.relationReflTransGen_of_exists_isChain_cons chain hchain hlast
  · exact ⟨nodup_depthFirst .., fun _ => mem_unseen_of_mem_depthFirst⟩

/-- A group that admits a type admits what the type covers. -/
theorem admits_of_covers {d : GroupDecl} (ha : g.admits d a = true) (hab : g.covers a b = true) :
    g.admits d b = true := by
  obtain ⟨allowed, hallowed, hcovers⟩ := List.any_eq_true.1 ha
  exact List.any_eq_true.2 ⟨allowed, hallowed, covers_trans hcovers hab⟩

theorem mem_standsFor_iff :
    b ∈ g.standsFor a ↔ g.covers a b = true ∧ ∃ c, g.shape? b = some c := by
  rw [standsFor, List.mem_filter, covers, decide_eq_true_iff, Option.isSome_iff_exists]

theorem shape?_eq_some_iff {c : Shape} : g.shape? a = some c ↔ g.get? a = some (.concrete c) := by
  rw [shape?]
  cases g.get? a with
  | none => simp
  | some type => cases type <;> simp

end Grammar
end BlockEdit
