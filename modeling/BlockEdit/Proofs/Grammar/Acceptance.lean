/-
Which specifications combine to a grammar, and what is reported of the others.
Only the kept definitions count, and the root that the first specification
names. Each definition has to make sense by itself, what they refer to has
to be defined, and so has the root. Of these the first that does not hold is
reported, and where it fails in several places, the first of them: the definitions
that make no sense go by specification and then by name, those that refer to
what is not defined by name alone, and what one definition says goes in its own
order (`Reports`).

**There is a grammar just when the three conditions hold, and otherwise there is
just the one report**: `combine_outcomes`.
-/
import BlockEdit.Proofs.Grammar.Kept

namespace BlockEdit

/-- In ascending order the first is the least. -/
theorem Entries.Ascending.isFirst_iff {κ α : Type} [Ord κ] [Std.TransOrd κ] [DecidableEq κ]
    {es : Entries κ α} (h : es.Ascending) {P : κ × α → Prop} {k : κ} {a : α} :
    IsFirst P es (k, a) ↔ es.get? k = some a ∧ P (k, a) ∧
      ∀ k' a', es.get? k' = some a' → compare k' k = .lt → ¬ P (k', a') := by
  have hmem : ∀ k a, es.get? k = some a ↔ (k, a) ∈ es := fun k a =>
    Entries.get?_eq_some_iff_mem h.distinct
  simp only [hmem]
  constructor
  · rintro ⟨before, after, rfl, hbefore, ha⟩
    refine ⟨by simp, ha, fun k' a' hmem' hlt => ?_⟩
    obtain ⟨-, hafter, -⟩ := List.pairwise_append.1 h
    rcases List.mem_append.1 hmem' with hmem' | hmem'
    · exact hbefore _ hmem'
    rcases List.mem_cons.1 hmem' with heq | hmem'
    · cases heq
      have hself : compare k k = .eq := Std.ReflCmp.compare_self
      rw [hself] at hlt
      cases hlt
    · have hgt := (List.pairwise_cons.1 hafter).1 _ hmem'
      have hswap : compare k k' = (compare k' k).swap := Std.OrientedCmp.eq_swap
      rw [hswap, hlt] at hgt
      cases hgt
  · rintro ⟨hka, ha, hleast⟩
    obtain ⟨before, after, rfl⟩ := List.append_of_mem hka
    obtain ⟨-, -, hless⟩ := List.pairwise_append.1 h
    refine ⟨before, after, rfl, fun e he => ?_, ha⟩
    exact hleast _ _ (List.mem_append_left _ he) (hless _ he _ List.mem_cons_self)

namespace Grammar

variable {g : Grammar} {source missing : TypeName}

/-- What a definition is reported for, if anything. -/
theorem map_find?_ne_none_iff {name : TypeName} {rs : List TypeName} :
    (rs.find? fun r => !g.defines r).map (name, ·) ≠ none ↔ ¬ ∀ r ∈ rs, g.defines r = true := by
  rw [ne_eq, Option.map_eq_none_iff, List.find?_eq_none]
  simp only [Bool.not_eq_true', Bool.not_eq_false]

theorem firstDangling?_eq_none_iff (h : g.types.Ascending) : g.firstDangling? = none ↔
    ∀ name type, g.get? name = some type → ∀ r ∈ type.references, g.defines r = true := by
  rw [firstDangling?, List.findSome?_eq_none_iff]
  simp only [get?, Entries.get?_eq_some_iff_mem h.distinct, Option.map_eq_none_iff,
    List.find?_eq_none, Bool.not_eq_true', Bool.not_eq_false]
  exact ⟨fun h name type hmem => h (name, type) hmem, fun h e hmem => h e.1 e.2 hmem⟩

theorem firstDangling?_eq_some_iff (h : g.types.Ascending) :
    g.firstDangling? = some (source, missing) ↔
      ∃ type, g.get? source = some type ∧ IsFirst (¬ g.defines · = true) type.references missing ∧
        ∀ name type', g.get? name = some type' → compare name source = .lt →
          ∀ r ∈ type'.references, g.defines r = true := by
  rw [firstDangling?, findSome?_eq_some_iff_isFirst]
  simp only [Prod.exists, map_find?_ne_none_iff, h.isFirst_iff, Classical.not_not]
  constructor
  · rintro ⟨name, type, ⟨htype, -, hleast⟩, hfound⟩
    obtain ⟨r, hr, heq⟩ := Option.map_eq_some_iff.1 hfound
    cases heq
    exact ⟨type, htype, by simpa using find?_eq_some_iff_isFirst.1 hr, hleast⟩
  · rintro ⟨type, htype, hfirst, hleast⟩
    refine ⟨source, type, ⟨htype, fun hall => hfirst.holds (hall _ hfirst.mem), hleast⟩, ?_⟩
    rw [find?_eq_some_iff_isFirst.2 (by simpa using hfirst), Option.map_some]

theorem checkClosed_eq_ok_iff : g.checkClosed = .ok () ↔
    g.firstDangling? = none ∧ ∀ root ∈ g.root, g.defines root = true := by
  rw [checkClosed]
  cases g.firstDangling? with
  | some found => simp
  | none =>
    cases g.root with
    | none => simp
    | some root =>
      dsimp only
      split
      · next h => simp [h]
      · next h => simp [h]

theorem checkClosed_eq_error_iff {e : GrammarError} : g.checkClosed = .error e ↔
    (∃ source missing, g.firstDangling? = some (source, missing) ∧ e = .dangling source missing) ∨
      (g.firstDangling? = none ∧
        ∃ root, g.root = some root ∧ ¬ g.defines root = true ∧ e = .undefinedType root) := by
  rw [checkClosed]
  cases g.firstDangling? with
  | some found =>
    obtain ⟨source, missing⟩ := found
    simp only [Except.error.injEq, reduceCtorEq, false_and, or_false, Option.some.injEq,
      Prod.mk.injEq]
    constructor
    · rintro rfl
      exact ⟨source, missing, ⟨rfl, rfl⟩, rfl⟩
    · rintro ⟨_, _, ⟨rfl, rfl⟩, rfl⟩
      rfl
  | none =>
    cases g.root with
    | none => simp
    | some root =>
      dsimp only
      split
      · next h => simp [h]
      · next h => simp [h, eq_comm (a := e)]

theorem combine_of_error {ds : List GrammarSpec} {e : GrammarError}
    (h : (addTypes [] (GrammarSpec.allDefinitions ds)).value = .error e) :
    (combine ds).value = .error e := by
  rw [combine]
  dsimp only
  rw [h]

theorem combine_of_ok {ds : List GrammarSpec} {types : Entries TypeName TypeDef}
    (h : (addTypes [] (GrammarSpec.allDefinitions ds)).value = .ok types) :
    (combine ds).value = (checkClosed ⟨types, GrammarSpec.firstRoot ds⟩).map
      fun _ => ⟨types, GrammarSpec.firstRoot ds⟩ := by
  rw [combine]
  dsimp only
  rw [h, ← GrammarSpec.firstRoot]
  dsimp only
  cases checkClosed ⟨types, GrammarSpec.firstRoot ds⟩ <;> rfl

end Grammar

/-! ## The conditions -/

namespace GrammarSpec

variable {ds : List GrammarSpec} {specs : Entries TypeName TypeSpec} {root : Option TypeName}
  {types : Entries TypeName TypeDef} {g : Grammar} {e : GrammarError}

def AllWellFormed (specs : Entries TypeName TypeSpec) : Prop :=
  ∀ name spec, specs.get? name = some spec → spec.WellFormed

/-- Definitions refer to nothing but what is defined. -/
def Closed (specs : Entries TypeName TypeSpec) : Prop :=
  ∀ name spec, specs.get? name = some spec → ∀ r ∈ spec.references, r ∈ specs.keys

def Rooted (specs : Entries TypeName TypeSpec) (root : Option TypeName) : Prop :=
  ∀ name ∈ root, name ∈ specs.keys

/-- What is reported of definitions and a root that make no grammar. -/
inductive Reports (specs : Entries TypeName TypeSpec) (root : Option TypeName) :
    GrammarError → Prop where
  | malformed {name : TypeName} {spec : TypeSpec} {cause : Malformation}
      (first : IsFirst (¬ ·.2.WellFormed) specs (name, spec)) (fails : spec.Fails name cause) :
      Reports specs root (.malformed cause)
  | dangling {source missing : TypeName} {spec : TypeSpec} (wellFormed : AllWellFormed specs)
      (defined : specs.get? source = some spec)
      (first : IsFirst (· ∉ specs.keys) spec.references missing)
      (least : ∀ name spec', specs.get? name = some spec' → compare name source = .lt →
        ∀ r ∈ spec'.references, r ∈ specs.keys) :
      Reports specs root (.dangling source missing)
  | undefinedRoot {name : TypeName} (wellFormed : AllWellFormed specs) (closed : Closed specs)
      (named : root = some name) (undefined : name ∉ specs.keys) :
      Reports specs root (.undefinedType name)

/-! ## The grammar of well-formed definitions -/

namespace Makes

variable (h : Makes specs types)
include h

theorem allWellFormed : AllWellFormed specs := by
  intro name spec hspec
  obtain ⟨type, -, htype⟩ := h.exists_type hspec
  exact TypeSpec.exists_toTypeDef_iff.1 ⟨type, htype⟩

theorem defines_iff {name : TypeName} :
    Grammar.defines ⟨types, root⟩ name = true ↔ name ∈ specs.keys :=
  h.has_iff

/-- Definitions and types refer to the same. -/
theorem forall_references_iff {P : TypeName → List TypeName → Prop} :
    (∀ name type, types.get? name = some type → P name type.references) ↔
      ∀ name spec, specs.get? name = some spec → P name spec.references := by
  constructor
  · intro hall name spec hspec
    obtain ⟨type, htype, hmade⟩ := h.exists_type hspec
    exact TypeSpec.references_of_toTypeDef hmade ▸ hall name type htype
  · intro hall name type htype
    obtain ⟨spec, hspec, hmade⟩ := h.exists_spec htype
    exact TypeSpec.references_of_toTypeDef hmade ▸ hall name spec hspec

theorem exists_references_iff {name : TypeName} {P : List TypeName → Prop} :
    (∃ type, types.get? name = some type ∧ P type.references) ↔
      ∃ spec, specs.get? name = some spec ∧ P spec.references := by
  constructor
  · rintro ⟨type, htype, hP⟩
    obtain ⟨spec, hspec, hmade⟩ := h.exists_spec htype
    exact ⟨spec, hspec, TypeSpec.references_of_toTypeDef hmade ▸ hP⟩
  · rintro ⟨spec, hspec, hP⟩
    obtain ⟨type, htype, hmade⟩ := h.exists_type hspec
    exact ⟨type, htype, TypeSpec.references_of_toTypeDef hmade ▸ hP⟩

theorem firstDangling?_eq_none_iff :
    Grammar.firstDangling? ⟨types, root⟩ = none ↔ Closed specs := by
  rw [Grammar.firstDangling?_eq_none_iff h.ascending, Closed]
  simp only [h.defines_iff]
  exact h.forall_references_iff (P := fun _ rs => ∀ r ∈ rs, r ∈ specs.keys)

theorem firstDangling?_eq_some_iff {source missing : TypeName} :
    Grammar.firstDangling? ⟨types, root⟩ = some (source, missing) ↔
      ∃ spec, specs.get? source = some spec ∧ IsFirst (· ∉ specs.keys) spec.references missing ∧
        ∀ name spec', specs.get? name = some spec' → compare name source = .lt →
          ∀ r ∈ spec'.references, r ∈ specs.keys := by
  rw [Grammar.firstDangling?_eq_some_iff h.ascending]
  simp only [Grammar.get?, h.defines_iff]
  have hleast := h.forall_references_iff
    (P := fun name rs => compare name source = .lt → ∀ r ∈ rs, r ∈ specs.keys)
  rw [hleast]
  exact h.exists_references_iff (P := fun rs => IsFirst (· ∉ specs.keys) rs missing ∧ _)

theorem checkClosed_eq_ok_iff :
    Grammar.checkClosed ⟨types, root⟩ = .ok () ↔ Closed specs ∧ Rooted specs root := by
  rw [Grammar.checkClosed_eq_ok_iff, h.firstDangling?_eq_none_iff]
  simp only [h.defines_iff, Rooted]

theorem checkClosed_eq_error_iff (hspecs : specs.Distinct) :
    Grammar.checkClosed ⟨types, root⟩ = .error e ↔ Reports specs root e := by
  rw [Grammar.checkClosed_eq_error_iff, h.firstDangling?_eq_none_iff]
  simp only [h.defines_iff, h.firstDangling?_eq_some_iff]
  constructor
  · rintro (⟨_, _, ⟨_, hspec, hfirst, hleast⟩, rfl⟩ | ⟨hclosed, _, rfl, hname, rfl⟩)
    · exact .dangling h.allWellFormed hspec hfirst hleast
    · exact .undefinedRoot h.allWellFormed hclosed rfl hname
  · rintro (⟨hfirst, -⟩ | ⟨-, hspec, hfirst, hleast⟩ | ⟨-, hclosed, hroot, hname⟩)
    · exact absurd (h.allWellFormed _ _ (Entries.get?_of_mem hspecs hfirst.mem)) hfirst.holds
    · exact .inl ⟨_, _, ⟨_, hspec, hfirst, hleast⟩, rfl⟩
    · exact .inr ⟨hclosed, _, hroot, hname, rfl⟩

end Makes

/-! ## What comes of a list of specifications -/

theorem exists_makes_or_fails (ds : List GrammarSpec) :
    (∃ types, (Grammar.addTypes [] (allDefinitions ds)).value = .ok types ∧ Makes (kept ds) types) ∨
      ∃ name spec cause,
        (Grammar.addTypes [] (allDefinitions ds)).value = .error (.malformed cause) ∧
        IsFirst (¬ ·.2.WellFormed) (kept ds) (name, spec) ∧ spec.Fails name cause := by
  cases hadded : (Grammar.addTypes [] (allDefinitions ds)).value with
  | ok types => exact .inl ⟨types, rfl, addTypes_eq_ok_iff.1 hadded⟩
  | error e =>
    obtain ⟨name, spec, cause, hfirst, hfails, rfl⟩ := addTypes_eq_error_iff.1 hadded
    exact .inr ⟨name, spec, cause, rfl, hfirst, hfails⟩

theorem not_allWellFormed {e : TypeName × TypeSpec} (h : IsFirst (¬ ·.2.WellFormed) (kept ds) e) :
    ¬ AllWellFormed (kept ds) :=
  fun hall => h.holds (hall _ _ (Entries.get?_of_mem (distinct_kept ds) h.mem))

/-- The grammar holds the types of the kept definitions, and they are closed. -/
theorem combine_eq_ok_iff : (Grammar.combine ds).value = .ok g ↔
    Makes (kept ds) g.types ∧ g.root = firstRoot ds ∧
      Closed (kept ds) ∧ Rooted (kept ds) (firstRoot ds) := by
  rcases exists_makes_or_fails ds with ⟨types, hadded, hmakes⟩ | ⟨_, _, _, hadded, hfirst, -⟩
  · rw [Grammar.combine_of_ok hadded]
    cases hclosed : Grammar.checkClosed ⟨types, firstRoot ds⟩ with
    | ok =>
      constructor
      · rintro ⟨⟩
        exact ⟨hmakes, rfl, hmakes.checkClosed_eq_ok_iff.1 hclosed⟩
      · rintro ⟨hmakes', hroot, -⟩
        rw [hmakes.unique hmakes', ← hroot]
        rfl
    | error e =>
      refine ⟨nofun, fun ⟨_, _, hconditions⟩ => ?_⟩
      rw [hmakes.checkClosed_eq_ok_iff.2 hconditions] at hclosed
      cases hclosed
  · rw [Grammar.combine_of_error hadded]
    refine ⟨nofun, fun ⟨hmakes, _⟩ => ?_⟩
    exact absurd hmakes.allWellFormed (not_allWellFormed hfirst)

theorem combine_eq_error_iff : (Grammar.combine ds).value = .error e ↔
    Reports (kept ds) (firstRoot ds) e := by
  rcases exists_makes_or_fails ds with ⟨types, hadded, hmakes⟩ | ⟨_, _, _, hadded, hfirst, hfails⟩
  · rw [Grammar.combine_of_ok hadded,
      ← hmakes.checkClosed_eq_error_iff (distinct_kept ds)]
    cases Grammar.checkClosed ⟨types, firstRoot ds⟩ with
    | ok => exact ⟨nofun, nofun⟩
    | error => simp [Except.map]
  · rw [Grammar.combine_of_error hadded]
    constructor
    · rintro ⟨⟩
      exact .malformed hfirst hfails
    · rintro (⟨hfirst', hfails'⟩ | ⟨hall, -, -, -⟩ | ⟨hall, -, -, -⟩)
      · have hadded' := addTypes_eq_error_iff.2 ⟨_, _, _, hfirst', hfails', rfl⟩
        rw [hadded] at hadded'
        cases hadded'
        rfl
      · exact absurd hall (not_allWellFormed hfirst)
      · exact absurd hall (not_allWellFormed hfirst)

/-- **Specifications combine to a grammar just when** each kept definition makes sense, refers
only to what is kept, and the first root is kept. Otherwise the first of these conditions that
fails is reported, where it first fails. What is not kept has no part in the outcome. Kept is
for each name the definition that the earliest specification holds under it, in the order of the
specifications and within one in ascending order of the names. -/
theorem combine_outcomes (ds : List GrammarSpec) :
    ((∀ name, (kept ds).get? name = prevailing? ds name) ∧
      (kept ds).Pairwise fun e e' => Before ds e.1 e'.1) ∧
    ((∃ g, (Grammar.combine ds).value = .ok g) ↔
      AllWellFormed (kept ds) ∧ Closed (kept ds) ∧ Rooted (kept ds) (firstRoot ds)) ∧
    (∀ e, (Grammar.combine ds).value = .error e ↔ Reports (kept ds) (firstRoot ds) e) ∧
    ∀ es, kept es = kept ds → firstRoot es = firstRoot ds →
      (Grammar.combine es).value = (Grammar.combine ds).value := by
  refine ⟨⟨get?_kept ds, pairwise_kept ds⟩, ⟨?_, ?_⟩, fun e => combine_eq_error_iff,
    fun es hkept hroot => ?_⟩
  · rintro ⟨g, hg⟩
    obtain ⟨hmakes, -, hconditions⟩ := combine_eq_ok_iff.1 hg
    exact ⟨hmakes.allWellFormed, hconditions⟩
  · rintro ⟨hall, hconditions⟩
    rcases exists_makes_or_fails ds with ⟨types, -, hmakes⟩ | ⟨_, _, _, -, hfirst, -⟩
    · exact ⟨⟨types, firstRoot ds⟩, combine_eq_ok_iff.2 ⟨hmakes, rfl, hconditions⟩⟩
    · exact absurd hall (not_allWellFormed hfirst)
  · cases h : (Grammar.combine ds).value with
    | ok g =>
      rw [combine_eq_ok_iff] at h ⊢
      rwa [hkept, hroot]
    | error e =>
      rw [combine_eq_error_iff] at h ⊢
      rwa [hkept, hroot]

/-- The second specification has no say in `x.t` or in the root. -/
example : (Grammar.combine [
      ⟨"first", some ⟨"x", "t"⟩, [("x", [("t", ⟨.concrete, [], []⟩)])]⟩,
      ⟨"second", none, [("x", [("t", ⟨.oneOf, [], []⟩), ("u", ⟨.concrete, [], []⟩)])]⟩]).value =
    .ok ⟨[(⟨"x", "t"⟩, .concrete ⟨[]⟩), (⟨"x", "u"⟩, .concrete ⟨[]⟩)], some ⟨"x", "t"⟩⟩ := by
  decide +kernel

end GrammarSpec
end BlockEdit
