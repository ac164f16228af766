/-
The definitions that prevail when specifications are combined: for each name
the one in the earliest specification that has one (`GrammarSpec.get?_kept`),
in the order of the specifications and within one by name
(`GrammarSpec.pairwise_kept`); both together say what `GrammarSpec.kept` is.

The types of the grammar are gone through one definition after the other, and no
list of what prevails is ever made. Yet the outcome is that of the list. If all
that is kept makes sense, the types are those that the kept definitions make,
by name (`GrammarSpec.addTypes_eq_ok_iff`); otherwise the first kept definition
that makes none is reported (`GrammarSpec.addTypes_eq_error_iff`).
-/
import BlockEdit.Grammar.Combination
import BlockEdit.Proofs.Grammar.Defined
import BlockEdit.Proofs.Grammar.Definition
import BlockEdit.Proofs.Node.Order

namespace BlockEdit

/-! ## The first entries -/

namespace Entries

variable {κ α : Type} [DecidableEq κ]

/-- Of the entries of one name, the first. -/
def firsts : Entries κ α → Entries κ α
  | [] => []
  | e :: es => e :: (firsts es).remove e.1

theorem get?_firsts (es : Entries κ α) (k : κ) : es.firsts.get? k = es.get? k := by
  induction es with
  | nil => rfl
  | cons e es ih =>
    obtain ⟨k', a⟩ := e
    rw [firsts, get?, get?, get?_remove, ih]
    split
    · rfl
    · next h => rw [if_neg (Ne.symm h)]

theorem distinct_firsts (es : Entries κ α) : es.firsts.Distinct := by
  induction es with
  | nil => exact distinct_nil
  | cons e es ih =>
    rw [firsts, Distinct, keys_cons, List.nodup_cons, keys_remove]
    refine ⟨by simp, ?_⟩
    rw [← keys_remove]
    exact distinct_remove ih e.1

theorem mem_firsts_iff {es : Entries κ α} {k : κ} {a : α} :
    (k, a) ∈ es.firsts ↔ es.get? k = some a := by
  rw [← get?_eq_some_iff_mem (distinct_firsts es), get?_firsts]

theorem firsts_append (es fs : Entries κ α) :
    firsts (es ++ fs) = es.firsts ++ fs.firsts.filter fun e => !es.has e.1 := by
  induction es with
  | nil => exact (List.filter_eq_self.2 fun _ _ => rfl).symm
  | cons e es ih =>
    rw [List.cons_append, firsts, firsts, ih, remove, remove, List.filter_append,
      List.filter_filter, List.cons_append]
    refine congrArg (e :: _ ++ ·) (List.filter_congr fun e' _ => ?_)
    by_cases h : e.1 = e'.1
    · simp [has, get?, h]
    · simp [has, get?, h, Ne.symm h]

theorem firsts_of_distinct {es : Entries κ α} (h : es.Distinct) : es.firsts = es := by
  induction es with
  | nil => rfl
  | cons e es ih =>
    rw [Distinct, keys_cons, List.nodup_cons] at h
    rw [firsts, ih h.2, remove]
    refine congrArg (e :: ·) (List.filter_eq_self.2 fun e' he' => decide_eq_true fun heq => ?_)
    exact h.1 (heq ▸ List.mem_map_of_mem he')

theorem has_place [Ord κ] [Std.LawfulEqOrd κ] (es : Entries κ α) (k : κ) (a : α) :
    (es.place k a).has = fun k' => decide (k' = k) || es.has k' := by
  funext k'
  rw [has]
  by_cases h : k' = k
  · simp [h, get?_place_self]
  · simp [h, get?_place_of_ne, has]

end Entries

/-! ## What prevails -/

namespace GrammarSpec

variable {d : GrammarSpec} {name : TypeName}

/-- The definition of a name in the earliest specification that has one. -/
def prevailing? (ds : List GrammarSpec) (name : TypeName) : Option TypeSpec :=
  ds.findSome? (·.defined? name)

theorem prevailing?_singleton (d : GrammarSpec) (name : TypeName) :
    prevailing? [d] name = d.defined? name := by
  rw [prevailing?, List.findSome?_cons, List.findSome?_nil]
  cases d.defined? name <;> rfl

theorem prevailing?_append (ds es : List GrammarSpec) (name : TypeName) :
    prevailing? (ds ++ es) name = (prevailing? ds name).or (prevailing? es name) :=
  List.findSome?_append

/-- The definitions that prevail: all of the first specification by name, and then those of the
others that it has none for. -/
def kept : List GrammarSpec → Entries TypeName TypeSpec
  | [] => []
  | d :: ds => d.byName ++ (kept ds).filter fun e => (d.defined? e.1).isNone

theorem kept_eq (ds : List GrammarSpec) :
    kept ds = Entries.firsts (ds.flatMap (·.definitions)) := by
  induction ds with
  | nil => rfl
  | cons d ds ih =>
    have hd : d.definitions.Distinct := Entries.distinct_sorted _
    rw [kept, ih, List.flatMap_cons, Entries.firsts_append, Entries.firsts_of_distinct hd,
      ← definitions_eq]
    refine congrArg (_ ++ ·) (List.filter_congr fun e _ => ?_)
    rw [Entries.has, get?_definitions, Option.not_isSome]

theorem distinct_kept (ds : List GrammarSpec) : (kept ds).Distinct :=
  kept_eq ds ▸ Entries.distinct_firsts _

theorem prevailing?_eq (ds : List GrammarSpec) (name : TypeName) :
    prevailing? ds name = Entries.get? (ds.flatMap (·.definitions)) name := by
  rw [Entries.get?_flatMap, prevailing?]
  simp only [get?_definitions]

theorem get?_kept (ds : List GrammarSpec) (name : TypeName) :
    (kept ds).get? name = prevailing? ds name := by
  rw [kept_eq, Entries.get?_firsts, prevailing?_eq]

/-- The position of the earliest specification that has a definition of the name. -/
def earliest (ds : List GrammarSpec) (name : TypeName) : Nat :=
  ds.findIdx fun d => (d.defined? name).isSome

/-- Names go by the earliest specification that defines them, and then in ascending order. -/
def Before (ds : List GrammarSpec) (a b : TypeName) : Prop :=
  earliest ds a < earliest ds b ∨ earliest ds a = earliest ds b ∧ compare a b = .lt

theorem earliest_cons_of_some {spec : TypeSpec} (h : d.defined? name = some spec)
    (ds : List GrammarSpec) : earliest (d :: ds) name = 0 := by
  simp [earliest, List.findIdx_cons, h]

theorem earliest_cons_of_none (h : d.defined? name = none) (ds : List GrammarSpec) :
    earliest (d :: ds) name = earliest ds name + 1 := by
  simp [earliest, List.findIdx_cons, h]

theorem pairwise_kept (ds : List GrammarSpec) :
    (kept ds).Pairwise fun e e' => Before ds e.1 e'.1 := by
  induction ds with
  | nil => exact List.Pairwise.nil
  | cons d ds ih =>
    have hfirst : ∀ e ∈ d.byName, earliest (d :: ds) e.1 = 0 := by
      intro e he
      have hspec := Entries.get?_of_mem d.ascending_byName.distinct he
      rw [get?_byName] at hspec
      exact earliest_cons_of_some hspec ds
    have hrest : ∀ e ∈ (kept ds).filter fun e => (d.defined? e.1).isNone,
        earliest (d :: ds) e.1 = earliest ds e.1 + 1 := fun e he =>
      earliest_cons_of_none (Option.isNone_iff_eq_none.1 (List.mem_filter.1 he).2) ds
    -- both stretches keep their order, and all of the first is ahead of all of the second
    refine List.pairwise_append.2 ⟨?_, ?_, fun e he e' he' => ?_⟩
    · refine d.ascending_byName.imp_of_mem fun he he' hlt => .inr ⟨?_, hlt⟩
      rw [hfirst _ he, hfirst _ he']
    · refine (ih.filter _).imp_of_mem fun he he' hbefore => ?_
      rwa [Before, hrest _ he, hrest _ he', Nat.add_lt_add_iff_right, Nat.add_right_cancel_iff]
    · refine .inl ?_
      rw [hfirst e he, hrest e' he']
      exact Nat.succ_pos _

/-- What the first specification says of the root. -/
def firstRoot (ds : List GrammarSpec) : Option TypeName := ds.head?.bind (·.root)

end GrammarSpec

/-! ## One definition after the other -/

namespace Definition

def entries (ds : List Definition) : Entries TypeName TypeSpec := ds.map fun d => (d.type, d.spec)

theorem entries_cons (d : Definition) (ds : List Definition) :
    entries (d :: ds) = (d.type, d.spec) :: entries ds := rfl

/-- The first definitions of names that are not known yet. -/
def fresh (known : TypeName → Bool) (ds : List Definition) : Entries TypeName TypeSpec :=
  (entries ds).firsts.filter fun e => !known e.1

theorem fresh_cons_of_known {known : TypeName → Bool} {d : Definition} (h : known d.type = true)
    (ds : List Definition) : fresh known (d :: ds) = fresh known ds := by
  rw [fresh, entries_cons, Entries.firsts, List.filter_cons_of_neg (by simpa using h),
    Entries.remove, List.filter_filter]
  refine List.filter_congr fun e _ => ?_
  by_cases he : e.1 = d.type
  · simp [he, h]
  · simp [he]

theorem fresh_cons_of_unknown {known : TypeName → Bool} {d : Definition} (h : known d.type = false)
    (ds : List Definition) : fresh known (d :: ds) =
      (d.type, d.spec) :: fresh (fun name => decide (name = d.type) || known name) ds := by
  rw [fresh, entries_cons, Entries.firsts, List.filter_cons_of_pos (by simpa using h),
    Entries.remove, List.filter_filter]
  refine congrArg (_ :: ·) (List.filter_congr fun e _ => ?_)
  simp [Bool.and_comm]

theorem entries_allDefinitions (ds : List GrammarSpec) :
    entries (GrammarSpec.allDefinitions ds) = ds.flatMap (·.definitions) := by
  rw [entries, GrammarSpec.allDefinitions, List.map_flatMap]
  simp [Function.comp_def]

theorem fresh_allDefinitions (ds : List GrammarSpec) :
    fresh (fun _ => false) (GrammarSpec.allDefinitions ds) = GrammarSpec.kept ds := by
  rw [fresh, entries_allDefinitions, GrammarSpec.kept_eq]
  exact List.filter_eq_self.2 fun _ _ => rfl

end Definition

namespace Grammar

variable {types types' : Entries TypeName TypeDef} {d : Definition} {ds : List Definition}

theorem addTypes_cons_of_has (h : types.has d.type = true) : addTypes types (d :: ds) =
    ⟨(addTypes types ds).value, .shadowedType d.grammar d.type :: (addTypes types ds).events⟩ := by
  rw [addTypes, if_pos h]

theorem addTypes_cons_of_error {cause : Malformation} (h : types.has d.type = false)
    (hspec : d.spec.toTypeDef d.type = .error cause) :
    addTypes types (d :: ds) = ⟨.error (.malformed cause), []⟩ := by
  rw [addTypes, if_neg (by simp [h]), hspec]

theorem addTypes_cons_of_ok {type : TypeDef} (h : types.has d.type = false)
    (hspec : d.spec.toTypeDef d.type = .ok type) :
    addTypes types (d :: ds) = addTypes (types.place d.type type) ds := by
  rw [addTypes, if_neg (by simp [h]), hspec]

/-- Adding types fails at the first new definition that makes no sense, for what is wrong with
it. -/
theorem addTypes_eq_error_iff {e : GrammarError} : (addTypes types ds).value = .error e ↔
    ∃ name spec cause, IsFirst (¬ ·.2.WellFormed) (Definition.fresh types.has ds) (name, spec) ∧
      spec.Fails name cause ∧ e = .malformed cause := by
  induction ds generalizing types with
  | nil => simp [addTypes, Definition.fresh, Definition.entries, Entries.firsts, not_isFirst_nil]
  | cons d ds ih =>
    cases h : types.has d.type with
    | true => rw [addTypes_cons_of_has h, Definition.fresh_cons_of_known h, ih]
    | false =>
      rw [Definition.fresh_cons_of_unknown h]
      simp only [isFirst_cons_iff]
      cases hspec : d.spec.toTypeDef d.type with
      | ok type =>
        have hwell : d.spec.WellFormed := TypeSpec.exists_toTypeDef_iff.1 ⟨type, hspec⟩
        rw [addTypes_cons_of_ok h hspec, ih, Entries.has_place]
        simp only [hwell, not_true_eq_false, false_and, not_false_eq_true, true_and, false_or]
      | error cause =>
        have hfails := TypeSpec.toTypeDef_eq_error_iff.1 hspec
        have hill : ¬ d.spec.WellFormed := TypeSpec.exists_fails_iff.1 ⟨_, hfails⟩
        rw [addTypes_cons_of_error h hspec]
        constructor
        · rintro ⟨⟩
          exact ⟨_, _, cause, .inl ⟨hill, rfl⟩, hfails, rfl⟩
        · rintro ⟨name, spec, cause', ⟨-, hsame⟩ | ⟨hwell, -⟩, hfails', rfl⟩
          · cases hsame
            rw [← TypeSpec.toTypeDef_eq_error_iff, hspec] at hfails'
            cases hfails'
            rfl
          · exact absurd hill hwell

/-- A run to the end: each definition is shadowed, or its type is added. -/
inductive Adds : Entries TypeName TypeDef → List Definition → Entries TypeName TypeDef →
    List Event → Prop where
  | done (types : Entries TypeName TypeDef) : Adds types [] types []
  | shadowed {types types' : Entries TypeName TypeDef} {d : Definition} {ds : List Definition}
      {events : List Event} (known : types.has d.type = true) (rest : Adds types ds types' events) :
      Adds types (d :: ds) types' (.shadowedType d.grammar d.type :: events)
  | added {types types' : Entries TypeName TypeDef} {d : Definition} {ds : List Definition}
      {events : List Event} {type : TypeDef} (new : types.has d.type = false)
      (made : d.spec.toTypeDef d.type = .ok type)
      (rest : Adds (types.place d.type type) ds types' events) : Adds types (d :: ds) types' events

theorem adds_of_addTypes (h : (addTypes types ds).value = .ok types') :
    Adds types ds types' (addTypes types ds).events := by
  induction ds generalizing types with
  | nil =>
    cases h
    exact .done _
  | cons d ds ih =>
    cases hhas : types.has d.type with
    | true =>
      rw [addTypes_cons_of_has hhas] at h ⊢
      exact .shadowed hhas (ih h)
    | false =>
      cases hspec : d.spec.toTypeDef d.type with
      | error cause =>
        rw [addTypes_cons_of_error hhas hspec] at h
        cases h
      | ok type =>
        rw [addTypes_cons_of_ok hhas hspec] at h ⊢
        exact .added hhas hspec (ih h)

namespace Adds

variable {events : List Event}

/-- The types that were there stay, and each new one is made from its first definition. -/
theorem get? (h : Adds types ds types' events) (name : TypeName) :
    (types'.get? name).map .ok = ((types.get? name).map .ok).or
      (((Definition.entries ds).get? name).map (·.toTypeDef name)) := by
  induction h with
  | done types => simp [Definition.entries, Entries.get?]
  | @shadowed types types' d ds events known rest ih =>
    rw [ih, Definition.entries_cons, Entries.get?]
    split
    · next heq =>
      obtain ⟨type, htype⟩ := Option.isSome_iff_exists.1 known
      subst heq
      rw [htype]
      rfl
    · rfl
  | @added types types' d ds events type new made rest ih =>
    rw [ih, Definition.entries_cons, Entries.get?]
    split
    · next heq =>
      subst heq
      rw [Entries.get?_place_self, Option.isNone_iff_eq_none.1 (Option.isSome_eq_false_iff.1 new),
        Option.map_some, Option.map_some, made]
      rfl
    · next hne => rw [Entries.get?_place_of_ne _ _ (Ne.symm hne)]

theorem ascending (h : Adds types ds types' events) (ht : types.Ascending) : types'.Ascending := by
  induction h with
  | done types => exact ht
  | shadowed known rest ih => exact ih ht
  | added new made rest ih => exact ih (Entries.ascending_place ht _ _)

end Adds
end Grammar

/-! ## The types of the kept definitions -/

namespace GrammarSpec

variable {ds : List GrammarSpec} {specs : Entries TypeName TypeSpec}
  {types types' : Entries TypeName TypeDef} {name : TypeName}

/-- There is a type for each definition, made from it, and no other. -/
structure Makes (specs : Entries TypeName TypeSpec) (types : Entries TypeName TypeDef) : Prop where
  ascending : types.Ascending
  made : ∀ name, (types.get? name).map .ok = (specs.get? name).map (·.toTypeDef name)

namespace Makes

theorem unique (h : Makes specs types) (h' : Makes specs types') : types = types' := by
  refine h.ascending.ext h'.ascending fun name => ?_
  have hmade := (h.made name).trans (h'.made name).symm
  exact Option.map_injective (fun _ _ => Except.ok.inj) hmade

theorem exists_spec {type : TypeDef} (h : Makes specs types) (htype : types.get? name = some type) :
    ∃ spec, specs.get? name = some spec ∧ spec.toTypeDef name = .ok type := by
  have hmade := h.made name
  rw [htype] at hmade
  exact Option.map_eq_some_iff.1 hmade.symm

theorem exists_type {spec : TypeSpec} (h : Makes specs types)
    (hspec : specs.get? name = some spec) :
    ∃ type, types.get? name = some type ∧ spec.toTypeDef name = .ok type := by
  have hmade := h.made name
  rw [hspec] at hmade
  obtain ⟨type, htype, heq⟩ := Option.map_eq_some_iff.1 hmade
  exact ⟨type, htype, heq.symm⟩

theorem has_iff (h : Makes specs types) : types.has name = true ↔ name ∈ specs.keys := by
  have hmade := congrArg Option.isSome (h.made name)
  rw [Option.isSome_map, Option.isSome_map] at hmade
  rw [← Entries.has_iff, Entries.has, Entries.has, hmade]

end Makes

theorem addTypes_eq_error_iff {e : GrammarError} :
    (Grammar.addTypes [] (allDefinitions ds)).value = .error e ↔
      ∃ name spec cause, IsFirst (¬ ·.2.WellFormed) (kept ds) (name, spec) ∧
        spec.Fails name cause ∧ e = .malformed cause := by
  rw [Grammar.addTypes_eq_error_iff, ← Definition.fresh_allDefinitions]
  rfl

theorem makes_of_addTypes (h : (Grammar.addTypes [] (allDefinitions ds)).value = .ok types) :
    Makes (kept ds) types where
  ascending := (Grammar.adds_of_addTypes h).ascending List.Pairwise.nil
  made name := by
    rw [(Grammar.adds_of_addTypes h).get?, Definition.entries_allDefinitions, ← prevailing?_eq,
      ← get?_kept]
    rfl

theorem addTypes_eq_ok_iff :
    (Grammar.addTypes [] (allDefinitions ds)).value = .ok types ↔ Makes (kept ds) types := by
  refine ⟨makes_of_addTypes, fun h => ?_⟩
  cases hadded : (Grammar.addTypes [] (allDefinitions ds)).value with
  | ok types' => rw [(makes_of_addTypes hadded).unique h]
  | error e =>
    obtain ⟨name, spec, cause, hfirst, -⟩ := addTypes_eq_error_iff.1 hadded
    have hspec := Entries.get?_of_mem (distinct_kept ds) hfirst.mem
    obtain ⟨type, -, htype⟩ := h.exists_type hspec
    exact absurd (TypeSpec.exists_toTypeDef_iff.1 ⟨type, htype⟩) hfirst.holds

end GrammarSpec
end BlockEdit
