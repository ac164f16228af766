/-
What a JSON value shows of typed data, told without any reader: a string shows
a text, an array a list, and an object a map, whatever the order of its fields.
What is optional is shown by a field, and is none where the field is absent or
`null`.

Readers may admit more than that. The one at hand reads each value as what it
shows, provided that it does so with what the value is made of.
-/
import BlockEdit.Json.Reading
import Mathlib.Data.List.Forall2
import Mathlib.Data.Option.Basic

namespace BlockEdit.Json

/-! ## Showing -/

inductive ShowsText : Json → String → Prop where
  | string (s : String) : ShowsText (.string s) s

section
variable {α : Type} (R : Json → α → Prop)

inductive ShowsList : Json → List α → Prop where
  | array {items : List Json} {as : List α} (each : List.Forall₂ R items as) :
    ShowsList (.array items) as

/-- No field of the object occurs twice, and there is one for each entry of the map. -/
inductive ShowsMap : Json → Entries String α → Prop where
  | object {fields : Entries String Json} {es : Entries String α} (distinct : fields.Distinct)
    (ascending : es.Ascending) (entries : ∀ k, Option.Rel R (fields.get? k) (es.get? k)) :
    ShowsMap (.object fields) es

/-- Values of the fields of one name, of which there may be one. -/
inductive ShowsOptional : List Json → Option α → Prop where
  | absent : ShowsOptional [] none
  | null : ShowsOptional [.null] none
  | given {v : Json} {a : α} (shows : R v a) : ShowsOptional [v] (some a)

end

/-! ## What is made to show something -/

section
variable {α β : Type} {R : Json → β → Prop} {f : α → Json} {g : α → β}

theorem ShowsList.map {as : List α} (h : ∀ a ∈ as, R (f a) (g a)) :
    ShowsList R (.array (as.map f)) (as.map g) := by
  refine .array ?_
  rw [List.forall₂_map_left_iff, List.forall₂_map_right_iff, List.forall₂_same]
  exact h

/-- The fields may come in any order, and the map is shown in its own. -/
theorem ShowsMap.map {es : Entries String α} (hd : es.Distinct)
    (h : ∀ e ∈ es, R (f e.2) (g e.2)) :
    ShowsMap R (.object (es.map fun e => (e.1, f e.2)))
      (Entries.sorted (es.map fun e => (e.1, g e.2))) := by
  refine .object (Entries.distinct_map hd f) (Entries.ascending_sorted _) fun k => ?_
  rw [Entries.get?_sorted (Entries.distinct_map hd g), Entries.get?_map, Entries.get?_map]
  cases hk : es.get? k with
  | none => exact .none
  | some a => exact .some (h (k, a) (Entries.mem_of_get? hk))

end

/-! ## What is shown is read -/

section
variable {α : Type} {R : Json → α → Prop} {r : Reader α} {v : Json}

theorem Reader.text_of_shows {s : String} (h : ShowsText v s) : Reader.text v = some s := by
  cases h
  rfl

theorem mapM_of_forall₂ {items : List Json} {as : List α} (h : List.Forall₂ R items as)
    (hr : ∀ item ∈ items, ∀ a ∈ as, R item a → r item = some a) : items.mapM r = some as := by
  induction h with
  | nil => rfl
  | @cons item a items as hfirst _ ih =>
    have hrest := ih fun item hitem a ha =>
      hr item (List.mem_cons_of_mem _ hitem) a (List.mem_cons_of_mem _ ha)
    rw [List.mapM_cons, hr item List.mem_cons_self a List.mem_cons_self hfirst, hrest]
    rfl

theorem Reader.list_of_shows {as : List α} (h : ShowsList R v as)
    (hr : ∀ item, item.depth < v.depth → ∀ a ∈ as, R item a → r item = some a) :
    Reader.list r v = some as := by
  obtain ⟨each⟩ := h
  exact mapM_of_forall₂ each fun item hitem =>
    hr item (Nat.lt_succ_of_le (depth_le_itemsDepth hitem))

/-- If all values of an object are read, its entries are, under their names. -/
theorem exists_mapM_entries {fields : Entries String Json}
    (h : ∀ f ∈ fields, ∃ a, r f.2 = some a) :
    ∃ es : Entries String α, fields.mapM (fun f => (r f.2).map (f.1, ·)) = some es ∧
      es.keys = fields.keys ∧ ∀ k, es.get? k = (fields.get? k).bind r := by
  induction fields with
  | nil => exact ⟨[], rfl, rfl, fun _ => rfl⟩
  | cons f fields ih =>
    obtain ⟨k, item⟩ := f
    obtain ⟨⟨a, ha⟩, hfields⟩ := List.forall_mem_cons.1 h
    obtain ⟨es, hes, hkeys, hget⟩ := ih hfields
    refine ⟨(k, a) :: es, ?_, by rw [Entries.keys_cons, Entries.keys_cons, hkeys], fun k' => ?_⟩
    · rw [List.mapM_cons, hes, ha]
      rfl
    · rw [Entries.get?, Entries.get?, hget]
      split
      · exact ha.symm
      · rfl

theorem exists_of_rel_some {item : Json} {a? : Option α} (h : Option.Rel R (some item) a?) :
    ∃ a, a? = some a ∧ R item a := by
  cases h with
  | some h => exact ⟨_, rfl, h⟩

theorem eq_none_of_rel_none {a? : Option α} (h : Option.Rel R none a?) : a? = none := by
  cases h
  rfl

theorem Reader.dictionary_of_shows {es : Entries String α} (h : ShowsMap R v es)
    (hr : ∀ item, item.depth < v.depth → ∀ e ∈ es, R item e.2 → r item = some e.2) :
    Reader.dictionary r v = some es := by
  cases h with
  | @object fields _ distinct ascending entries =>
    have hentry : ∀ {k item}, fields.get? k = some item →
        ∃ a, es.get? k = some a ∧ r item = some a := by
      intro k item hitem
      obtain ⟨a, ha, hshows⟩ := exists_of_rel_some (hitem ▸ entries k)
      have hdepth := depth_le_fieldsDepth (Entries.mem_of_get? hitem)
      exact ⟨a, ha, hr item (Nat.lt_succ_of_le hdepth) (k, a) (Entries.mem_of_get? ha) hshows⟩
    have hall : ∀ f ∈ fields, ∃ a, r f.2 = some a := fun f hf =>
      (hentry (Entries.get?_of_mem distinct hf)).imp fun _ h => h.2
    obtain ⟨es', hread, hkeys, hget⟩ := exists_mapM_entries hall
    have hdistinct : es'.Distinct := by rwa [Entries.Distinct, hkeys]
    have hsame : Entries.sorted es' = es := by
      refine (Entries.ascending_sorted es').ext ascending fun k => ?_
      rw [Entries.get?_sorted hdistinct, hget]
      cases hk : fields.get? k with
      | none => exact (eq_none_of_rel_none (hk ▸ entries k)).symm
      | some item =>
        obtain ⟨a, ha, hitem⟩ := hentry hk
        rw [ha, Option.bind_some, hitem]
    rw [Reader.dictionary, hread, Option.map_some, hsame]

end

/-! ## Fields -/

section
variable {α : Type} {fields : List (String × Json)} {name : String} {v : Json} {r : Reader α}

theorem required_of_valuesOf (h : valuesOf fields name = [v]) : required fields name r = r v := by
  rw [required, field?, h]
  cases hv : r v <;> simp [hv]

theorem mem_of_valuesOf (h : valuesOf fields name = [v]) : (name, v) ∈ fields := by
  have hmem : v ∈ valuesOf fields name := h ▸ List.mem_singleton_self v
  obtain ⟨⟨k, _⟩, hfilter, rfl⟩ := List.mem_map.1 hmem
  obtain ⟨hf, hk⟩ := List.mem_filter.1 hfilter
  obtain rfl : k = name := of_decide_eq_true hk
  exact hf

/-- An optional map is read where the field is given, if it is shown there, and is none else. -/
theorem optionalField_of_shows {R : Json → α → Prop} {m : Option (Entries String α)}
    {r : Reader (Entries String α)} (h : ShowsOptional (ShowsMap R) (valuesOf fields name) m)
    (hr : ∀ v, (name, v) ∈ fields → ∀ es, m = some es → ShowsMap R v es → r v = some es) :
    optionalField fields name r = some m := by
  rw [optionalField, fieldOr, field?]
  generalize hvalues : valuesOf fields name = values at h
  cases h with
  | absent => rfl
  | null => rfl
  | @given v es hshows =>
    have hread := hr v (mem_of_valuesOf hvalues) es rfl hshows
    cases hshows
    simp [Reader.optional, hread]

end

end BlockEdit.Json
