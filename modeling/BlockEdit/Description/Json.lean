/-
The JSON form of a description: an object with the fields `language` and
`name` and, if need be, `properties` and `children`. An absent map is
written as `null`, so absent and empty maps stay apart.

`toText` and `ofText?` are a plain writer and a plain reader of it. The reader
admits more than what is written: it has the lenient rules of `Json.Reading`.
What it reads is `Canonical`, whatever the order of the fields in the text.
Where text is left to a library, that library takes their place
(`Description.Text`).
-/
import BlockEdit.Description
import BlockEdit.Json.Parser
import BlockEdit.Json.Printer
import BlockEdit.Json.Reading

namespace BlockEdit.Description

open Json

/-- Reads descriptions that nest at most as deep as the given number. -/
def reader : (depth : Nat) → Reader Description
  | 0 => fun _ => none
  | depth + 1 => Reader.record fun fields => do
    let language ← required fields "language" Reader.text
    let name ← required fields "name" Reader.text
    let properties ← optionalField fields "properties" (Reader.dictionary Reader.text)
    let children ←
      optionalField fields "children" (Reader.dictionary (Reader.list (reader depth)))
    return ⟨language, name, properties, children⟩

def ofJson? (v : Json) : Option Description := reader v.depth v

def ofText? (text : String) : Option Description := do
  let v ← Json.parse? text
  ofJson? v

def propertiesJson : Option (List (String × String)) → Json
  | none => .null
  | some properties => .object (properties.map fun (key, value) => (key, .string value))

mutual
def toJson : Description → Json
  | ⟨language, name, properties, none⟩ =>
    .object [("language", .string language), ("name", .string name),
      ("properties", propertiesJson properties), ("children", .null)]
  | ⟨language, name, properties, some groups⟩ =>
    .object [("language", .string language), ("name", .string name),
      ("properties", propertiesJson properties), ("children", .object (groupsJson groups))]

def groupsJson : List (String × List Description) → List (String × Json)
  | [] => []
  | (group, children) :: groups => (group, .array (childrenJson children)) :: groupsJson groups

def childrenJson : List Description → List Json
  | [] => []
  | child :: children => child.toJson :: childrenJson children
end

def toText (d : Description) : String := d.toJson.print

end BlockEdit.Description
