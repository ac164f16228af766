/-
Several specifications against a single one that says the same: it has the
definitions that prevail, under their names, and the first root (`Merges`). The
definitions of several are gone through by specification and those of the
single one by name, so of several that make no sense another one may be the
first. In all else the two come to the same, grammar or report; and what is
recorded on the way to a grammar is that each definition of a name that an
earlier specification defines is shadowed: `combine_of_merges`.
-/
import BlockEdit.Proofs.Grammar.Acceptance

namespace BlockEdit

/-! ## Definitions by language and name -/

namespace Entries

variable {α : Type}

/-- The entries of one language, by name within it. -/
def within (es : Entries TypeName α) (language : String) : Entries String α :=
  (es.filter fun e => e.1.language = language).map fun e => (e.1.name, e.2)

theorem within_cons_of_eq {k : TypeName} {language : String} (h : k.language = language) (a : α)
    (es : Entries TypeName α) :
    within ((k, a) :: es) language = (k.name, a) :: es.within language := by
  rw [within, List.filter_cons_of_pos (by simpa using h), List.map_cons, ← within]

theorem within_cons_of_ne {k : TypeName} {language : String} (h : k.language ≠ language) (a : α)
    (es : Entries TypeName α) : within ((k, a) :: es) language = es.within language := by
  rw [within, List.filter_cons_of_neg (by simpa using h), ← within]

theorem get?_within (es : Entries TypeName α) (language name : String) :
    (es.within language).get? name = es.get? ⟨language, name⟩ := by
  induction es with
  | nil => rfl
  | cons e es ih =>
    obtain ⟨⟨language', name'⟩, a⟩ := e
    by_cases h : language' = language
    · subst h
      rw [within_cons_of_eq rfl, get?, get?, ih]
      simp
    · rw [within_cons_of_ne h, get?, if_neg (by simp [h]), ih]

theorem distinct_within {es : Entries TypeName α} (h : es.Distinct) (language : String) :
    (es.within language).Distinct := by
  induction es with
  | nil => exact distinct_nil
  | cons e es ih =>
    obtain ⟨⟨language', name⟩, a⟩ := e
    rw [Distinct, keys_cons, List.nodup_cons] at h
    by_cases hlanguage : language' = language
    · subst hlanguage
      rw [within_cons_of_eq rfl, Distinct, keys_cons, List.nodup_cons]
      refine ⟨?_, ih h.2⟩
      rw [← get?_eq_none_iff, get?_within, get?_eq_none_iff]
      exact h.1
    · rw [within_cons_of_ne hlanguage]
      exact ih h.2

theorem get?_map_mk {κ : Type} [DecidableEq κ] (f : κ → α) (ks : List κ) (k : κ) :
    get? (ks.map fun k => (k, f k)) k = if k ∈ ks then some (f k) else none := by
  simpa only [ofKeys, Option.map_some, List.filterMap_eq_map']
    using get?_ofKeys ks (fun k => some (f k)) k

end Entries

namespace GrammarSpec

variable {d m : GrammarSpec} {ds : List GrammarSpec}

/-! ## The merged specification -/

/-- The specification holds the definition that prevails under each name, and the first root. -/
structure Merges (m : GrammarSpec) (ds : List GrammarSpec) : Prop where
  definitions : ∀ name, m.defined? name = prevailing? ds name
  root : m.root = firstRoot ds

def merged (ds : List GrammarSpec) : GrammarSpec where
  name := ""
  root := firstRoot ds
  types := Entries.firsts ((kept ds).map fun e => (e.1.language, (kept ds).within e.1.language))

theorem typesDistinct_merged (ds : List GrammarSpec) : (merged ds).TypesDistinct where
  languages := Entries.distinct_firsts _
  names := by
    intro (language, names) he
    have he := Entries.mem_of_get? (Entries.mem_firsts_iff.1 he)
    obtain ⟨e, -, heq⟩ := List.mem_map.1 he
    cases heq
    exact Entries.distinct_within (distinct_kept ds) _

theorem merges_merged (ds : List GrammarSpec) : (merged ds).Merges ds where
  definitions name := by
    obtain ⟨language, name⟩ := name
    have hmap : (kept ds).map (fun e => (e.1.language, (kept ds).within e.1.language)) =
        ((kept ds).map (·.1.language)).map fun language =>
          (language, (kept ds).within language) := by
      rw [List.map_map]
      rfl
    rw [defined?_of_typesDistinct (typesDistinct_merged ds), merged, Entries.get?_firsts, hmap,
      Entries.get?_map_mk, ← get?_kept]
    split
    · exact Entries.get?_within (kept ds) language name
    · next hlanguage =>
      refine (Entries.get?_eq_none_iff.2 fun hmem => hlanguage ?_).symm
      obtain ⟨e, he, heq⟩ := List.mem_map.1 hmem
      exact List.mem_map.2 ⟨e, he, congrArg TypeName.language heq⟩
  root := rfl

/-! ## The same definitions -/

section
variable {specs specs' : Entries TypeName TypeSpec} {types : Entries TypeName TypeDef}
  {root : Option TypeName} {e : GrammarError} (h : ∀ name, specs.get? name = specs'.get? name)
include h

theorem mem_keys_congr (name : TypeName) : name ∈ specs.keys ↔ name ∈ specs'.keys := by
  rw [← Entries.has_iff, ← Entries.has_iff, Entries.has, Entries.has, h]

theorem makes_congr : Makes specs types ↔ Makes specs' types :=
  ⟨fun hmakes => ⟨hmakes.ascending, fun name => h name ▸ hmakes.made name⟩,
    fun hmakes => ⟨hmakes.ascending, fun name => h name ▸ hmakes.made name⟩⟩

theorem allWellFormed_congr : AllWellFormed specs ↔ AllWellFormed specs' := by
  simp only [AllWellFormed, h]

theorem closed_congr : Closed specs ↔ Closed specs' := by
  simp only [Closed, h, mem_keys_congr h]

theorem rooted_congr : Rooted specs root ↔ Rooted specs' root := by
  simp only [Rooted, mem_keys_congr h]

/-- Only which definition is the first to make no sense depends on their order. -/
theorem reports_congr (he : ∀ cause, e ≠ .malformed cause) (hreports : Reports specs root e) :
    Reports specs' root e := by
  obtain _ | ⟨hall, hspec, hfirst, hleast⟩ | ⟨hall, hclosed, hroot, hname⟩ := hreports
  · exact absurd rfl (he _)
  · simp only [h, mem_keys_congr h] at hspec hfirst hleast
    exact .dangling ((allWellFormed_congr h).1 hall) hspec hfirst hleast
  · rw [mem_keys_congr h] at hname
    exact .undefinedRoot ((allWellFormed_congr h).1 hall) ((closed_congr h).1 hclosed) hroot hname

end

theorem Merges.get?_kept (h : m.Merges ds) (name : TypeName) :
    (kept ds).get? name = (kept [m]).get? name := by
  rw [GrammarSpec.get?_kept, GrammarSpec.get?_kept, ← h.definitions, prevailing?_singleton]

end GrammarSpec

/-! ## What is shadowed -/

namespace Grammar.Adds

variable {types types' types'' : Entries TypeName TypeDef} {ds es : List Definition}
  {events : List Event}

theorem of_append (h : Adds types (ds ++ es) types'' events) :
    ∃ types' eventsₗ eventsᵣ, Adds types ds types' eventsₗ ∧ Adds types' es types'' eventsᵣ ∧
      events = eventsₗ ++ eventsᵣ := by
  induction ds generalizing types events with
  | nil => exact ⟨types, [], events, .done types, h, rfl⟩
  | cons d ds ih =>
    cases h with
    | shadowed known rest =>
      obtain ⟨types', eventsₗ, eventsᵣ, hds, hes, rfl⟩ := ih rest
      exact ⟨types', _, eventsᵣ, .shadowed known hds, hes, rfl⟩
    | added new made rest =>
      obtain ⟨types', eventsₗ, eventsᵣ, hds, hes, rfl⟩ := ih rest
      exact ⟨types', eventsₗ, eventsᵣ, .added new made hds, hes, rfl⟩

theorem has (h : Adds types ds types' events) (name : TypeName) :
    types'.has name = (types.has name || (Definition.entries ds).has name) := by
  have hget := congrArg Option.isSome (h.get? name)
  rw [Option.isSome_or, Option.isSome_map, Option.isSome_map, Option.isSome_map] at hget
  exact hget

/-- Of definitions of distinct names those are shadowed whose names are known before. -/
theorem events_eq (h : Adds types ds types' events) (hdistinct : (ds.map (·.type)).Nodup) :
    events = (ds.filter fun d => types.has d.type).map fun d =>
      .shadowedType d.grammar d.type := by
  induction h with
  | done types => rfl
  | shadowed known rest ih =>
    rw [ih (List.nodup_cons.1 hdistinct).2, List.filter_cons_of_pos (by simpa using known),
      List.map_cons]
  | @added types types' d ds events type new made rest ih =>
    obtain ⟨hd, hdistinct⟩ := List.nodup_cons.1 hdistinct
    rw [ih hdistinct, List.filter_cons_of_neg (by simp [new]), Entries.has_place]
    refine congrArg (List.map _) (List.filter_congr fun d' hd' => ?_)
    have hne : d'.type ≠ d.type := fun heq => hd (List.mem_map.2 ⟨d', hd', heq⟩)
    simp [hne]

end Grammar.Adds

namespace GrammarSpec

variable {d m : GrammarSpec} {ds : List GrammarSpec} {types types' : Entries TypeName TypeDef}
  {events : List Event}

/-- One record for each name that a specification before defines too, in ascending order. -/
def shadowedBy (before : List GrammarSpec) (d : GrammarSpec) : List Event :=
  (d.names.filter fun name => (prevailing? before name).isSome).map (.shadowedType d.name ·)

/-- The records for the definitions of each specification, after those before it. -/
def shadowings (ds : List GrammarSpec) : List Event :=
  ds.zipIdx.flatMap fun (d, i) => shadowedBy (ds.take i) d

/-- The definitions of one specification. -/
def labelled (d : GrammarSpec) : List Definition :=
  d.definitions.map fun (type, spec) => ⟨d.name, type, spec⟩

theorem allDefinitions_cons (d : GrammarSpec) (ds : List GrammarSpec) :
    allDefinitions (d :: ds) = d.labelled ++ allDefinitions ds :=
  List.flatMap_cons

theorem entries_labelled (d : GrammarSpec) : Definition.entries d.labelled = d.definitions := by
  rw [Definition.entries, labelled, List.map_map]
  exact List.map_id _

theorem nodup_labelled (d : GrammarSpec) : (d.labelled.map (·.type)).Nodup := by
  rw [labelled, List.map_map]
  exact Entries.distinct_sorted _

theorem events_labelled {before : List GrammarSpec}
    (hbefore : ∀ name, types.has name = (prevailing? before name).isSome)
    (h : Grammar.Adds types d.labelled types' events) : events = shadowedBy before d := by
  rw [h.events_eq (nodup_labelled d), shadowedBy, labelled, ← keys_definitions, Entries.keys,
    List.filter_map, List.filter_map, List.map_map, List.map_map]
  simp only [Function.comp_def, hbefore]

/-- What is recorded of some specifications where those before have been gone through. -/
theorem events_allDefinitions (before : List GrammarSpec)
    (hbefore : ∀ name, types.has name = (prevailing? before name).isSome)
    (h : Grammar.Adds types (allDefinitions ds) types' events) :
    events = (ds.zipIdx before.length).flatMap fun (d, i) =>
      shadowedBy ((before ++ ds).take i) d := by
  induction ds generalizing before types events with
  | nil =>
    cases h
    rfl
  | cons d ds ih =>
    rw [allDefinitions_cons] at h
    obtain ⟨types₁, eventsₗ, eventsᵣ, hd, hds, rfl⟩ := h.of_append
    have hbefore' : ∀ name, types₁.has name = (prevailing? (before ++ [d]) name).isSome := by
      intro name
      rw [hd.has, hbefore, entries_labelled, prevailing?_append, prevailing?_singleton,
        Option.isSome_or, Entries.has, get?_definitions]
    have hrest := ih (before ++ [d]) hbefore' hds
    rw [List.append_assoc, List.singleton_append, List.length_append,
      List.length_singleton] at hrest
    rw [events_labelled hbefore hd, hrest, List.zipIdx_cons, List.flatMap_cons]
    dsimp only
    rw [List.take_left' rfl]

theorem events_combine {g : Grammar} (h : (Grammar.combine ds).value = .ok g) :
    (Grammar.combine ds).events =
      shadowings ds ++ g.loops.map .alternativeLoop ++ [.builtGrammar ds.length g.size] := by
  rcases exists_makes_or_fails ds with ⟨types, hadded, -⟩ | ⟨_, _, _, hadded, -⟩
  · have hevents := events_allDefinitions [] (fun _ => rfl) (Grammar.adds_of_addTypes hadded)
    rw [Grammar.combine_of_ok hadded] at h
    rw [Grammar.combine]
    dsimp only
    rw [hadded, hevents, ← firstRoot]
    dsimp only
    cases hclosed : Grammar.checkClosed ⟨types, firstRoot ds⟩ with
    | ok =>
      rw [hclosed] at h
      cases h
      rfl
    | error e =>
      rw [hclosed] at h
      cases h
  · rw [Grammar.combine_of_error hadded] at h
    cases h

/-- **Specifications combine to just what one specification combines to that merges them**, and
there is such a one: the same grammar, and the same report unless a definition makes no sense.
Where there is a grammar, all definitions but the first of each name are recorded as shadowed, by
specification and within one in ascending order of the names. -/
theorem combine_of_merges (ds : List GrammarSpec) :
    (merged ds).Merges ds ∧
    (∀ m, m.Merges ds →
      (∀ g, (Grammar.combine ds).value = .ok g ↔ (Grammar.combine [m]).value = .ok g) ∧
      ∀ e, (∀ cause, e ≠ .malformed cause) →
        ((Grammar.combine ds).value = .error e ↔ (Grammar.combine [m]).value = .error e)) ∧
    (∀ g, (Grammar.combine ds).value = .ok g → (Grammar.combine ds).events =
      shadowings ds ++ g.loops.map .alternativeLoop ++ [.builtGrammar ds.length g.size]) ∧
    ∀ d ∈ ds, d.names.Pairwise (compare · · = .lt) ∧
      ∀ name, name ∈ d.names ↔ (d.defined? name).isSome = true := by
  refine ⟨merges_merged ds, fun m hm => ⟨fun g => ?_, fun e he => ?_⟩, fun g hg => ?_,
    fun d _ => ⟨d.pairwise_names, fun name => mem_names_iff⟩⟩
  · have hroot : firstRoot [m] = firstRoot ds := hm.root
    rw [combine_eq_ok_iff, combine_eq_ok_iff, hroot, makes_congr hm.get?_kept,
      closed_congr hm.get?_kept, rooted_congr hm.get?_kept]
  · have hroot : firstRoot [m] = firstRoot ds := hm.root
    rw [combine_eq_error_iff, combine_eq_error_iff, hroot]
    exact ⟨reports_congr hm.get?_kept he, reports_congr (fun name => (hm.get?_kept name).symm) he⟩
  · exact events_combine hg

end GrammarSpec
end BlockEdit
