/-
Reading grammar specifications from JSON.
-/
import BlockEdit.Grammar.Spec
import BlockEdit.Json.Parser
import BlockEdit.Json.Reading

namespace BlockEdit

open Json

def TypeName.reader : Reader TypeName :=
  Reader.record fun fields => do
    return ⟨← required fields "languageName" Reader.text, ← required fields "typeName" Reader.text⟩

def Literal.reader : Reader Literal :=
  Reader.choice [("boolean", .boolean), ("integer", .integer), ("string", .text)]

def AttributeForm.reader : Reader AttributeForm :=
  Reader.choice [("property", .property), ("sequence", .sequence), ("allowed", .allowed),
    ("choice", .choice), ("terminal", .terminal)]

def AttributeSpec.reader : Reader AttributeSpec :=
  Reader.record fun fields => do
    let kind ← required fields "type" AttributeForm.reader
    let name ← optionalField fields "name" Reader.text
    let literal ← optionalField fields "base" Literal.reader
    let isOptional ← optionalField fields "optional" Reader.flag
    let types ← fieldOr fields "types" [] (Reader.list TypeName.reader)
    let atLeast ← optionalField fields "minOccurs" Reader.count
    let atMost ← optionalField fields "maxOccurs" Reader.count
    let symbol ← optionalField fields "symbol" Reader.text
    return { kind, name, literal, isOptional, types, atLeast, atMost, symbol }

def TypeSpec.reader : Reader TypeSpec :=
  Reader.record fun fields => do
    let kind ← required fields "type" (Reader.choice [("concrete", .concrete), ("oneOf", .oneOf)])
    let attributes ← fieldOr fields "attributes" [] (Reader.list AttributeSpec.reader)
    let oneOf ← fieldOr fields "oneOf" [] (Reader.list TypeName.reader)
    return { kind, attributes, oneOf }

namespace GrammarSpec

def reader : Reader GrammarSpec :=
  Reader.record fun fields => do
    let name ← required fields "name" Reader.text
    let root ← optionalField fields "root" TypeName.reader
    let types ←
      required fields "types" (Reader.dictionary (Reader.dictionary TypeSpec.reader))
    return { name, root, types }

def ofText? (text : String) : Option GrammarSpec := do
  let v ← Json.parse? text
  reader v

end GrammarSpec
end BlockEdit
