/-
Descriptions written as text by one part of a library and read back by another.
Two things are known of such a library (`TextLibrary.Standard`). It writes a
JSON object with the fields of the description, in which an absent map is `null`
and a map is an object with its entries in any order. And a JSON text that shows
a description is read as a description that it shows.

Then nothing is lost on the way, whatever the texts in a description and however
deep it nests (`Description.text_roundTrip`). For what is written shows what it is
written of (`Description.shownBy_toJson`), and a text shows one description only
(`Description.shownIn_unique`): there is one way to take its escapes and its
tokens apart, and one description in the value that comes of them.
-/
import BlockEdit.Description.Json
import BlockEdit.Description.Text
import BlockEdit.Proofs.Description.NormalForm
import BlockEdit.Proofs.Json.RoundTrip
import BlockEdit.Proofs.Json.Showing

namespace BlockEdit

open Json

namespace Description

/-! ## The JSON form -/

/-- No map has a name twice, at any level. -/
inductive Keyed : Description → Prop where
  | intro {d : Description} (properties : Entries.Distinct (d.properties.getD []))
      (children : Entries.Distinct (d.children.getD []))
      (nested : ∀ g ∈ d.children.getD [], ∀ c ∈ g.2, Keyed c) : Keyed d

theorem Canonical.keyed {d : Description} (h : d.Canonical) : d.Keyed := by
  induction h with
  | intro properties children _ ih => exact .intro properties.distinct children.distinct ih

/-- The text is the JSON form of the description, with the entries of its maps in some order. -/
def WrittenAs (d : Description) (text : String) : Prop :=
  ∃ d' : Description, d'.Keyed ∧ d'.sorted = d ∧ d'.toJson.WrittenAs text

def groupsMapJson : Option (List (String × List Description)) → Json
  | none => .null
  | some groups => .object (groups.map fun g => (g.1, .array (g.2.map toJson)))

theorem childrenJson_eq : ∀ cs, childrenJson cs = cs.map toJson
  | [] => rfl
  | c :: cs => by rw [childrenJson, childrenJson_eq cs, List.map_cons]

theorem groupsJson_eq : ∀ gs, groupsJson gs = gs.map fun g => (g.1, .array (g.2.map toJson))
  | [] => rfl
  | (group, cs) :: gs => by rw [groupsJson, groupsJson_eq gs, childrenJson_eq, List.map_cons]

theorem toJson_eq (d : Description) : d.toJson =
    .object [("language", .string d.language), ("name", .string d.name),
      ("properties", propertiesJson d.properties), ("children", groupsMapJson d.children)] := by
  obtain ⟨language, name, properties, children⟩ := d
  cases children with
  | none => rfl
  | some groups => rw [toJson, groupsJson_eq]; rfl

/-! ## What a value shows -/

/-- The value is an object with the fields of the description, in any order and each of them once.
Those of absent maps may be left out. -/
inductive ShownBy : Json → Description → Prop where
  | object {fields : List (String × Json)} {d : Description}
      (known : ∀ f ∈ fields, f.1 ∈ ["language", "name", "properties", "children"])
      (language : valuesOf fields "language" = [.string d.language])
      (name : valuesOf fields "name" = [.string d.name])
      (properties : ShowsOptional (ShowsMap ShowsText) (valuesOf fields "properties") d.properties)
      (children : ShowsOptional (ShowsMap (ShowsList ShownBy)) (valuesOf fields "children")
        d.children) : ShownBy (.object fields) d

/-- The text is JSON, and its value shows the description. -/
def ShownIn (d : Description) (text : String) : Prop :=
  ∃ v : Json, v.WrittenAs text ∧ ShownBy v d

theorem showsOptional_propertiesJson {properties : Option (List (String × String))}
    (h : Entries.Distinct (properties.getD [])) :
    ShowsOptional (ShowsMap ShowsText) [propertiesJson properties]
      (properties.map Entries.sorted) := by
  cases properties with
  | none => exact .null
  | some es =>
    have hid : (es.map fun e => (e.1, id e.2)) = es := List.map_id es
    have hshows : ShowsMap ShowsText (.object (es.map fun e => (e.1, .string e.2)))
        (Entries.sorted (es.map fun e => (e.1, id e.2))) := .map h fun e _ => .string e.2
    rw [hid] at hshows
    exact .given hshows

theorem showsOptional_groupsMapJson {groups? : Option (List (String × List Description))}
    (h : Entries.Distinct (groups?.getD []))
    (hnested : ∀ g ∈ groups?.getD [], ∀ c ∈ g.2, ShownBy c.toJson c.sorted) :
    ShowsOptional (ShowsMap (ShowsList ShownBy)) [groupsMapJson groups?]
      (groups?.map fun gs => Entries.sorted (gs.map fun g => (g.1, g.2.map sorted))) := by
  cases groups? with
  | none => exact .null
  | some groups =>
    exact .given (ShowsMap.map (f := fun cs => Json.array (cs.map toJson)) h
      fun g hg => .map (hnested g hg))

/-- The JSON form shows the description, whatever the order in its maps. -/
theorem shownBy_toJson {d : Description} (h : d.Keyed) : ShownBy d.toJson d.sorted := by
  induction h with
  | intro properties children _ ih =>
    rw [toJson_eq, sorted_eq]
    refine .object ?_ rfl rfl ?_ ?_
    · simp
    · exact showsOptional_propertiesJson properties
    · exact showsOptional_groupsMapJson children ih

theorem WrittenAs.shownIn {d : Description} {text : String} (h : d.WrittenAs text) :
    d.ShownIn text := by
  obtain ⟨d', hkeyed, rfl, hwritten⟩ := h
  exact ⟨d'.toJson, hwritten, shownBy_toJson hkeyed⟩

/-! ## One description only -/

/-- A value is read as what it shows. -/
theorem reader_of_shownBy {d : Description} {v : Json} (h : ShownBy v d) :
    ∀ depth, v.depth ≤ depth → reader depth v = some d := by
  induction d using induct generalizing v with
  | step d ih =>
    intro depth hdepth
    cases h with
    | @object fields _ known language name properties children =>
      rw [Json.depth] at hdepth
      cases depth with
      | zero => omega
      | succ depth =>
        have hproperties := optionalField_of_shows properties fun v _ es _ hes =>
          Reader.dictionary_of_shows hes fun _ _ _ _ => Reader.text_of_shows
        -- what stands in a field nests less deep than the object, and so do the parts of it
        have hchildren := optionalField_of_shows
          (r := Reader.dictionary (Reader.list (reader depth))) children
          fun v hv gs hgs hshows => by
            have hfield := depth_le_fieldsDepth hv
            refine Reader.dictionary_of_shows hshows fun item hitem g hg hlist => ?_
            refine Reader.list_of_shows hlist fun item' hitem' c hc hc' => ?_
            exact ih g (hgs ▸ hg) c hc hc' depth (by omega)
        rw [reader, Reader.record, required_of_valuesOf language, required_of_valuesOf name,
          hproperties, hchildren]
        cases d
        rfl

theorem ofText?_of_shownIn {d : Description} {text : String} (h : d.ShownIn text) :
    ofText? text = some d := by
  obtain ⟨v, hwritten, hshown⟩ := h
  rw [ofText?, parse?_of_writtenAs hwritten]
  exact reader_of_shownBy hshown _ (Nat.le_refl _)

theorem shownIn_unique {d d' : Description} {text : String} (h : d.ShownIn text)
    (h' : d'.ShownIn text) : d = d' :=
  Option.some.inj ((ofText?_of_shownIn h).symm.trans (ofText?_of_shownIn h'))

end Description

/-! ## Libraries -/

/-- What is known of a library. -/
structure TextLibrary.Standard {ε : Type} (lib : TextLibrary ε) : Prop where
  writes : ∀ d : Description, d.Canonical → d.WrittenAs (lib.write d)
  /-- What else a JSON text may be read as is left open, and so is what other texts are. -/
  reads : ∀ text, (∃ d : Description, d.ShownIn text) →
    ∃ d : Description, d.ShownIn text ∧ lib.read text = .ok d

namespace Description

variable {ε : Type} {lib : TextLibrary ε} {d : Description}

theorem readBy_of_shownIn (hlib : lib.Standard) {text : String} (h : d.ShownIn text) :
    readBy lib text = .ok d := by
  obtain ⟨d', hd', hread⟩ := hlib.reads text ⟨d, h⟩
  rw [readBy, hread, shownIn_unique h hd']
  rfl

/-- **Text and back.** What a library writes of a description it reads as that description: absent
maps stay apart from empty ones, and no two descriptions are written alike. And so does it read
every other JSON text that shows the description, whatever the order of fields and entries, the
blanks and the escapes in it. -/
theorem text_roundTrip (hlib : lib.Standard) (h : d.Canonical) :
    readBy lib (d.writtenBy lib) = .ok d ∧
      (∀ d' : Description, d'.Canonical → d'.writtenBy lib = d.writtenBy lib → d' = d) ∧
      ∀ text, d.ShownIn text → readBy lib text = .ok d := by
  have hwritten : d.ShownIn (d.writtenBy lib) := (hlib.writes d h).shownIn
  refine ⟨readBy_of_shownIn hlib hwritten, fun d' h' heq => ?_, fun _ => readBy_of_shownIn hlib⟩
  have hwritten' : d'.ShownIn (d'.writtenBy lib) := (hlib.writes d' h').shownIn
  exact shownIn_unique hwritten' (heq ▸ hwritten)

end Description

/-- A library that writes maps in ascending order, without blanks. -/
def TextLibrary.plain : TextLibrary Unit where
  write d := d.toText
  read text := (Description.ofText? text).elim (.error ()) .ok
  display _ := "no description"

theorem TextLibrary.standard_plain : plain.Standard where
  writes d h := ⟨d, h.keyed, Description.sorted_of_canonical h, d.toJson.writtenAs_print⟩
  reads text := by
    rintro ⟨d, h⟩
    have hread : (Description.ofText? text).elim (.error ()) .ok = Except.ok d := by
      rw [Description.ofText?_of_shownIn h, Option.elim_some]
    exact ⟨d, h, hread⟩

namespace Description

/-- Quotation marks, backslashes, control characters and characters beyond U+FFFF, a map that is
absent, one that is empty, and a group without children. -/
def escaped : Description :=
  ⟨"no\te", "\"ä😀\"\n", none, some [("", []), ("c\\d", [⟨"", "\x01", some [], none⟩])]⟩

theorem text_roundTrip_escaped : TextLibrary.plain.Standard ∧ escaped.Canonical ∧
    readBy .plain (escaped.writtenBy .plain) = .ok escaped := by
  have hsorted : escaped.sorted = escaped := by decide
  have h : escaped.Canonical := hsorted ▸ canonical_sorted escaped
  exact ⟨TextLibrary.standard_plain, h, (text_roundTrip TextLibrary.standard_plain h).1⟩

end Description
end BlockEdit
