/-
In which order a name stands for its shapes. `Grammar.standsFor` is read off
a search that keeps one list of seen names for all branches and never takes a
name off it. Another way to find the shapes is to expand members as long as
there are any, and to pass a name over only where it is on the path to itself:
`Grammar.expansion`. That lists a shape once for every way that leads to it.

Both find the shapes in the same order (`Grammar.standsFor_eq_expansion`). What
the search passes over and the expansion does not has been followed as far as
it goes without the names on the path: every way on from a seen name ends in
seen names, or comes through a name that is on the path still
(`Underway.followed`). So the expansion has nothing new there.
-/
import BlockEdit.Proofs.Grammar.Reach

namespace BlockEdit

/-! ## A search and the paths to what is pending -/

section
variable {α : Type} {next : α → List α} {unseen : List α}

/-- An item that a search has come to by a path and has not looked at yet. -/
structure Pending (α : Type) where
  path : List α
  item : α

/-- What holds of a search at any time: a path leads through seen items, the items at the end of
shorter paths wait behind those at the end of longer ones, and an unseen item that a seen one
leads to is pending, at the end of a path through that one. -/
structure Underway (next : α → List α) (unseen : List α) (pending : List (Pending α)) : Prop where
  seen : ∀ p ∈ pending, ∀ a ∈ p.path, a ∉ unseen
  nested : pending.Pairwise fun p q => q.path ⊆ p.path
  followed : ∀ a, a ∉ unseen → ∀ b ∈ next a, b ∈ unseen → ∃ p ∈ pending, p.item = b ∧ a ∈ p.path

namespace Underway

variable {p : Pending α} {rest : List (Pending α)}

/-- A seen item is passed over. -/
theorem pass (h : Underway next unseen (p :: rest)) (hp : p.item ∉ unseen) :
    Underway next unseen rest where
  seen q hq := h.seen q (List.mem_cons_of_mem _ hq)
  nested := (List.pairwise_cons.1 h.nested).2
  followed a ha b hb hunseen := by
    obtain ⟨q, hq, rfl, hpath⟩ := h.followed a ha b hb hunseen
    rcases List.mem_cons.1 hq with rfl | hq
    · exact absurd hunseen hp
    · exact ⟨q, hq, rfl, hpath⟩

/-- The items that a new item leads to come first, at the end of the path through it. -/
theorem enter [DecidableEq α] (h : Underway next unseen (p :: rest)) :
    Underway next (without unseen p.item) ((next p.item).map (⟨p.item :: p.path, ·⟩) ++ rest) where
  seen q hq a ha hunseen := by
    obtain ⟨hunseen, hne⟩ := mem_without.1 hunseen
    rcases List.mem_append.1 hq with hq | hq
    · obtain ⟨b, -, rfl⟩ := List.mem_map.1 hq
      rcases List.mem_cons.1 ha with rfl | ha
      · exact hne rfl
      · exact h.seen p List.mem_cons_self a ha hunseen
    · exact h.seen q (List.mem_cons_of_mem _ hq) a ha hunseen
  nested := by
    obtain ⟨hp, hrest⟩ := List.pairwise_cons.1 h.nested
    refine List.pairwise_append.2 ⟨?_, hrest, ?_⟩
    · exact List.pairwise_map.2 (List.pairwise_of_forall fun _ _ => List.Subset.refl _)
    · intro q hq r hr
      obtain ⟨b, -, rfl⟩ := List.mem_map.1 hq
      exact List.subset_cons_of_subset _ (hp r hr)
  followed a ha b hb hunseen := by
    obtain ⟨hunseen, hne⟩ := mem_without.1 hunseen
    by_cases hap : a = p.item
    · subst hap
      refine ⟨⟨p.item :: p.path, b⟩, ?_, rfl, List.mem_cons_self⟩
      exact List.mem_append_left _ (List.mem_map_of_mem hb)
    · have hseen : a ∉ unseen := fun hmem => ha (mem_without.2 ⟨hmem, hap⟩)
      obtain ⟨q, hq, rfl, hpath⟩ := h.followed a hseen b hb hunseen
      rcases List.mem_cons.1 hq with rfl | hq
      · exact absurd rfl hne
      · exact ⟨q, List.mem_append_right _ hq, rfl, hpath⟩

/-- A seen item that is not on the path leads to seen items only. -/
theorem seen_of_next (h : Underway next unseen (p :: rest)) {a b : α} (ha : a ∉ unseen)
    (hpath : a ∉ p.path) (hb : b ∈ next a) : b ∉ unseen := by
  intro hunseen
  obtain ⟨q, hq, -, haq⟩ := h.followed a ha b hb hunseen
  rcases List.mem_cons.1 hq with rfl | hq
  · exact hpath haq
  · exact hpath ((List.pairwise_cons.1 h.nested).1 q hq haq)

end Underway

/-! ## First appearances -/

variable [DecidableEq α]

/-- The unseen items in the order in which they first appear. -/
def firstUnseen (unseen as : List α) : List α := (as.filter (· ∈ unseen)).eraseDups

variable {a : α} {as bs : List α}

theorem firstUnseen_cons_of_mem (h : a ∈ unseen) :
    firstUnseen unseen (a :: as) = a :: firstUnseen (without unseen a) as := by
  rw [firstUnseen, List.filter_cons_of_pos (by simpa using h), List.eraseDups_cons,
    List.filter_filter, firstUnseen]
  congr 2
  refine List.filter_congr fun b _ => ?_
  rw [Bool.eq_iff_iff]
  simp [mem_without, and_comm]

theorem firstUnseen_append_of_seen (h : ∀ b ∈ as, b ∉ unseen) :
    firstUnseen unseen (as ++ bs) = firstUnseen unseen bs := by
  have hnil : as.filter (· ∈ unseen) = [] :=
    List.filter_eq_nil_iff.2 fun b hb => by simpa using h b hb
  rw [firstUnseen, List.filter_append, hnil, List.nil_append, firstUnseen]

theorem firstUnseen_of_subset (h : as ⊆ unseen) : firstUnseen unseen as = as.eraseDups := by
  rw [firstUnseen, List.filter_eq_self.2 fun b hb => decide_eq_true (h hb)]

end

namespace Grammar

variable {g : Grammar} {path : List TypeName}

theorem filter_not_mem_cons (names path : List TypeName) (name : TypeName) :
    names.filter (· ∉ name :: path) = without (names.filter (· ∉ path)) name := by
  rw [without, List.filter_filter]
  refine List.filter_congr fun a _ => ?_
  simp

/-- What a name expands to at the end of a path: itself, and then its members, one by one in the
order of declaration, each with all that it expands to. A name comes up as often as there are ways
to it. Only a name that is on the path to itself is not expanded again. -/
def expansion (g : Grammar) (path : List TypeName) (name : TypeName) : List TypeName :=
  if _hpath : name ∈ path then []
  else
    match _hname : g.get? name with
    | some (.oneOf members) =>
      name :: members.flatMap fun member => g.expansion (name :: path) member
    | _ => [name]
termination_by (g.types.keys.filter (· ∉ path)).length
decreasing_by
  -- a name that has members is defined, and from then on it is on the path
  have hkey : name ∈ g.types.keys := List.mem_map_of_mem (Entries.mem_of_get? _hname)
  rw [filter_not_mem_cons]
  exact length_without_lt (List.mem_filter.2 ⟨hkey, decide_eq_true _hpath⟩)

variable {name c : TypeName}

theorem expansion_of_mem (h : name ∈ path) : g.expansion path name = [] := by
  rw [expansion, dif_pos h]

theorem expansion_of_not_mem (h : name ∉ path) : g.expansion path name =
    name :: (g.members name).flatMap (g.expansion (name :: path)) := by
  rw [expansion, dif_neg h, members]
  split
  · next hg => rw [hg]
  · next hg =>
    split
    · next members hmembers => exact absurd hmembers (hg members)
    · rfl

/-- What holds of a name, and of the members of every name of which it holds and that is not on
the path, holds of all that the name expands to. -/
theorem of_mem_expansion {P : TypeName → Prop} (hname : P name)
    (hmembers : ∀ a, P a → a ∉ path → ∀ b ∈ g.members a, P b) (h : c ∈ g.expansion path name) :
    P c := by
  induction path, name using expansion.induct g with
  | case1 path name hpath =>
    rw [expansion_of_mem hpath] at h
    cases h
  | case2 path name hpath members hg ih =>
    rw [expansion_of_not_mem hpath, List.mem_cons] at h
    rcases h with rfl | h
    · exact hname
    · obtain ⟨member, hmember, h⟩ := List.mem_flatMap.1 h
      refine ih member (hmembers name hname hpath member hmember) (fun a ha hapath => ?_) h
      exact hmembers a ha fun hmem => hapath (List.mem_cons_of_mem _ hmem)
  | case3 path name hpath hnot =>
    rw [expansion_of_not_mem hpath, List.mem_cons] at h
    rcases h with rfl | h
    · exact hname
    · obtain ⟨member, hmember, -⟩ := List.mem_flatMap.1 h
      obtain ⟨members, hg, -⟩ := leadsTo_iff.1 hmember
      exact absurd hg (hnot members)

/-- **A search in its course.** What is still to be found are the unseen names among those that
the pending names expand to, in the order in which they first appear there. -/
theorem depthFirst_eq_firstUnseen {unseen : List TypeName} {pending : List (Pending TypeName)}
    (h : Underway g.members unseen pending) :
    depthFirst g.members unseen (pending.map (·.item)) =
      firstUnseen unseen (pending.flatMap fun p => g.expansion p.path p.item) := by
  generalize hstack : pending.map (·.item) = stack
  induction unseen, stack using depthFirst_induct g.members generalizing pending with
  | done unseen =>
    rw [List.map_eq_nil_iff.1 hstack, depthFirst_nil]
    rfl
  | seen unseen a stack ha ih =>
    obtain ⟨p, rest, rfl, rfl, rfl⟩ := List.map_eq_cons_iff.1 hstack
    have hseen : ∀ c ∈ g.expansion p.path p.item, c ∉ unseen := fun c =>
      of_mem_expansion ha fun a ha hpath b hb => h.seen_of_next ha hpath hb
    rw [depthFirst_cons_of_not_mem _ _ ha, List.flatMap_cons, firstUnseen_append_of_seen hseen]
    exact ih (h.pass ha) rfl
  | found unseen a stack ha ih =>
    obtain ⟨p, rest, rfl, rfl, rfl⟩ := List.map_eq_cons_iff.1 hstack
    have hpath : p.item ∉ p.path := fun hmem => h.seen p List.mem_cons_self _ hmem ha
    have hrest := ih h.enter (by simp [Function.comp_def])
    rw [List.flatMap_append, List.flatMap_map] at hrest
    rw [depthFirst_cons_of_mem _ _ ha, List.flatMap_cons, expansion_of_not_mem hpath,
      List.cons_append, firstUnseen_cons_of_mem ha, hrest]

theorem mem_mentioned_of_get? {type : TypeDef} (h : g.get? name = some type) :
    name ∈ g.mentioned :=
  List.mem_flatMap.2 ⟨_, Entries.mem_of_get? h, List.mem_cons_self⟩

/-- At the start no name has been seen that has members. -/
theorem underway_start (g : Grammar) (name : TypeName) :
    Underway g.members (name :: g.mentioned) [⟨[], name⟩] where
  seen p hp a ha := by
    rw [List.mem_singleton.1 hp] at ha
    cases ha
  nested := List.pairwise_singleton ..
  followed a ha b hb _ := by
    obtain ⟨members, hg, -⟩ := leadsTo_iff.1 hb
    exact absurd (List.mem_cons_of_mem _ (mem_mentioned_of_get? hg)) ha

/-- The names that a name leads to are reached in the order of their first appearance in what it
expands to. -/
theorem reach_eq_eraseDups_expansion (g : Grammar) (name : TypeName) :
    g.reach name = (g.expansion [] name).eraseDups := by
  have hsubset : g.expansion [] name ⊆ name :: g.mentioned := fun c =>
    of_mem_expansion List.mem_cons_self fun a _ _ b hb =>
      List.mem_cons_of_mem _ (mem_mentioned_of_mem_members hb)
  have hsearch := depthFirst_eq_firstUnseen (g.underway_start name)
  rw [List.flatMap_singleton, firstUnseen_of_subset hsubset] at hsearch
  exact hsearch

/-- **What a name stands for, and in which order.** The list holds no name twice, and it holds
just the names that are defined as shapes and that the name covers. They come in the order in which
they first appear in what the name expands to, where members are expanded in the order of
declaration, as often as they come up, and only a name that is on the path to itself is cut. -/
theorem standsFor_eq_expansion (g : Grammar) (name : TypeName) :
    (g.standsFor name).Nodup ∧
    (∀ c, c ∈ g.standsFor name ↔
      (∃ shape, g.get? c = some (.concrete shape)) ∧ g.covers name c = true) ∧
    g.standsFor name = (g.expansion [] name).eraseDups.filter fun n => (g.shape? n).isSome := by
  refine ⟨(nodup_depthFirst ..).filter _, fun c => ?_, ?_⟩
  · simp only [mem_standsFor_iff, shape?_eq_some_iff, and_comm]
  · rw [standsFor, reach_eq_eraseDups_expansion]

/-- Groups and operands lead to each other, and a term leads to both. -/
def terms : Grammar where
  types := [
    (⟨"calc", "group"⟩, .oneOf [⟨"calc", "operand"⟩, ⟨"calc", "name"⟩]),
    (⟨"calc", "name"⟩, .concrete ⟨[]⟩),
    (⟨"calc", "number"⟩, .concrete ⟨[]⟩),
    (⟨"calc", "operand"⟩, .oneOf [⟨"calc", "number"⟩, ⟨"calc", "group"⟩]),
    (⟨"calc", "term"⟩, .oneOf [⟨"calc", "group"⟩, ⟨"calc", "operand"⟩])]
  root := none

example : (terms.expansion [] ⟨"calc", "term"⟩).map (·.name) =
      ["term", "group", "operand", "number", "name", "operand", "number", "group", "name"] ∧
    (terms.standsFor ⟨"calc", "term"⟩).map (·.name) = ["number", "name"] := by
  decide +kernel

end Grammar
end BlockEdit
