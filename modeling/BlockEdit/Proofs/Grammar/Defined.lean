/-
What a specification defines, read off its types by language and by name within
it (`GrammarSpec.defined?`). Where nothing is listed twice, which is so in maps,
that is what the map of the language holds under the name
(`defined?_of_typesDistinct`); otherwise what is listed last counts, as it does in a
map that is filled in the order of the list.

The definitions that are gone through when a grammar is made are just these, in
ascending order of their names (`definitions_eq`).
-/
import BlockEdit.Grammar.Spec
import Mathlib.Data.List.Dedup
import Mathlib.Data.List.Sort

namespace BlockEdit

/-! ## Entries made of names -/

namespace Entries

variable {κ α : Type} {f : κ → Option α} {ks : List κ} {k : κ}

/-- An entry for each name that has a value. -/
def ofKeys (ks : List κ) (f : κ → Option α) : Entries κ α :=
  ks.filterMap fun k => (f k).map (k, ·)

theorem ofKeys_cons_of_none (h : f k = none) : ofKeys (k :: ks) f = ofKeys ks f :=
  List.filterMap_cons_none (by rw [h, Option.map_none])

theorem ofKeys_cons_of_some {a : α} (h : f k = some a) :
    ofKeys (k :: ks) f = (k, a) :: ofKeys ks f :=
  List.filterMap_cons_some (by rw [h, Option.map_some])

theorem get?_ofKeys [DecidableEq κ] (ks : List κ) (f : κ → Option α) (k : κ) :
    (ofKeys ks f).get? k = if k ∈ ks then f k else none := by
  induction ks with
  | nil => rfl
  | cons k' ks ih =>
    cases hf : f k' with
    | none =>
      rw [ofKeys_cons_of_none hf, ih]
      by_cases h : k = k'
      · simp [h, hf]
      · simp [h]
    | some a =>
      rw [ofKeys_cons_of_some hf, get?, ih]
      by_cases h : k' = k
      · simp [← h, hf]
      · simp [h, Ne.symm h]

theorem keys_ofKeys (h : ∀ k ∈ ks, (f k).isSome = true) : (ofKeys ks f).keys = ks := by
  induction ks with
  | nil => rfl
  | cons k ks ih =>
    obtain ⟨hk, hks⟩ := List.forall_mem_cons.1 h
    obtain ⟨a, ha⟩ := Option.isSome_iff_exists.1 hk
    rw [ofKeys_cons_of_some ha, keys_cons, ih hks]

theorem ascending_ofKeys [Ord κ] (h : ks.Pairwise (compare · · = .lt)) (f : κ → Option α) :
    (ofKeys ks f).Ascending := by
  refine h.filterMap _ fun k k' hlt e he e' he' => ?_
  obtain ⟨a, -, rfl⟩ := Option.map_eq_some_iff.1 he
  obtain ⟨a', -, rfl⟩ := Option.map_eq_some_iff.1 he'
  exact hlt

end Entries

namespace GrammarSpec

variable {d : GrammarSpec} {name : TypeName}

/-- The definition that is listed last under the language and the name. -/
def defined? (d : GrammarSpec) (name : TypeName) : Option TypeSpec :=
  d.types.reverse.findSome? fun (language, types) =>
    if language = name.language then Entries.get? types.reverse name.name else none

/-- The names with a definition, in ascending order. -/
def names (d : GrammarSpec) : List TypeName :=
  let listed := d.types.flatMap fun (language, types) => types.map (⟨language, ·.1⟩)
  listed.dedup.insertionSort fun a b => (compare a b).isLE

theorem pairwise_names (d : GrammarSpec) : d.names.Pairwise (compare · · = .lt) := by
  have total : Std.Total fun a b : TypeName => (compare a b).isLE = true := ⟨TypeName.isLE_or_isLE⟩
  have trans : IsTrans TypeName fun a b => (compare a b).isLE = true :=
    ⟨fun _ _ _ => Std.TransCmp.isLE_trans⟩
  have hle : d.names.Pairwise fun a b => (compare a b).isLE = true :=
    List.pairwise_insertionSort _ _
  -- no name is left twice, so none is followed by one that compares equal
  have hne : d.names.Nodup := (List.perm_insertionSort _ _).nodup_iff.2 (List.nodup_dedup _)
  exact hle.imp₂ (fun _ _ => TypeName.lt_of_isLE_of_ne) hne

theorem mem_names_iff : name ∈ d.names ↔ (d.defined? name).isSome = true := by
  obtain ⟨language, name⟩ := name
  rw [names, List.mem_insertionSort, List.mem_dedup, defined?, List.isSome_findSome?]
  simp only [List.mem_flatMap, List.any_eq_true, List.mem_reverse]
  refine exists_congr fun e => and_congr_right fun _ => ?_
  obtain ⟨language', types⟩ := e
  dsimp only
  split
  · next h =>
    rw [← Entries.has, Entries.has_iff, Entries.keys, List.map_reverse, List.mem_reverse]
    simp [h]
  · next h => simp [h]

/-- The definitions in ascending order of their names. -/
def byName (d : GrammarSpec) : Entries TypeName TypeSpec := Entries.ofKeys d.names d.defined?

theorem ascending_byName (d : GrammarSpec) : d.byName.Ascending :=
  Entries.ascending_ofKeys d.pairwise_names _

theorem get?_byName (d : GrammarSpec) (name : TypeName) : d.byName.get? name = d.defined? name := by
  rw [byName, Entries.get?_ofKeys]
  split
  · rfl
  · next h =>
    rw [mem_names_iff, Option.not_isSome_iff_eq_none] at h
    exact h.symm

/-! ## What is gone through -/

theorem get?_qualified (language' language name : String) (types : Entries String TypeSpec) :
    Entries.get? (types.map fun (name, type) => ((⟨language', name⟩ : TypeName), type))
      ⟨language, name⟩ = if language' = language then types.get? name else none := by
  induction types with
  | nil => simp [Entries.get?]
  | cons e types ih =>
    rw [List.map_cons, Entries.get?, Entries.get?, ih]
    by_cases hlanguage : language' = language
    · simp [hlanguage]
    · simp [hlanguage]

theorem get?_definitions (d : GrammarSpec) (name : TypeName) :
    d.definitions.get? name = d.defined? name := by
  obtain ⟨language, name⟩ := name
  rw [definitions, Entries.get?_sorted_eq_get?_reverse, List.reverse_flatMap, Entries.get?_flatMap,
    defined?]
  simp only [Function.comp_apply, ← List.map_reverse, get?_qualified]

theorem definitions_eq (d : GrammarSpec) : d.definitions = d.byName :=
  (Entries.ascending_sorted _).ext d.ascending_byName fun name => by
    rw [← definitions, get?_definitions, get?_byName]

theorem keys_definitions (d : GrammarSpec) : d.definitions.keys = d.names := by
  rw [definitions_eq, byName, Entries.keys_ofKeys fun _ => mem_names_iff.1]

/-! ## Types by language and name -/

/-- No language and no name within one occurs twice. -/
structure TypesDistinct (d : GrammarSpec) : Prop where
  languages : Entries.Distinct d.types
  names : ∀ e ∈ d.types, Entries.Distinct e.2

theorem findSome?_language {α β : Type} {es : Entries String α} (h : es.Distinct)
    (language : String) (f : α → Option β) :
    (es.findSome? fun e => if e.1 = language then f e.2 else none) = (es.get? language).bind f := by
  induction es with
  | nil => rfl
  | cons e es ih =>
    obtain ⟨language', a⟩ := e
    rw [Entries.Distinct, Entries.keys_cons, List.nodup_cons] at h
    rw [List.findSome?_cons, ih h.2, Entries.get?]
    by_cases hlanguage : language' = language
    · subst hlanguage
      rw [Entries.get?_eq_none_iff.2 h.1]
      cases hf : f a <;> simp [hf]
    · simp [hlanguage]

/-- A definition is what the map of its language holds under its name. -/
theorem defined?_of_typesDistinct (h : d.TypesDistinct) (language name : String) :
    d.defined? ⟨language, name⟩ = (Entries.get? d.types language).bind (Entries.get? · name) := by
  have hfind := findSome?_language h.languages.reverse language fun types =>
    Entries.get? types.reverse name
  rw [Entries.get?_reverse h.languages] at hfind
  refine hfind.trans (Option.bind_congr fun types htypes => ?_)
  exact Entries.get?_reverse (h.names _ (Entries.mem_of_get? htypes)) name

end GrammarSpec
end BlockEdit
