/-
One grammar out of several specifications. Where they define the same name the
first of them prevails; the others are recorded as shadowed and not looked
at. The first specification alone names the root type.

There is a grammar only if every definition that prevails makes sense and
refers to defined types. Of several faults the one found first is reported:
definitions are gone through by specification and, within one, by name. What
was recorded before a failure stays recorded.
-/
import BlockEdit.Event
import BlockEdit.Grammar
import BlockEdit.Grammar.Resolution

namespace BlockEdit

/-- The definition of a type, with the name of the grammar it stands in. -/
structure Definition where
  grammar : String
  type : TypeName
  spec : TypeSpec
deriving DecidableEq, Repr

/-- All definitions in the order in which they are gone through. -/
def GrammarSpec.allDefinitions (ds : List GrammarSpec) : List Definition :=
  ds.flatMap fun d => d.definitions.map fun (type, spec) => ⟨d.name, type, spec⟩

namespace Grammar

/-- Adds the definitions of new names to those already there. -/
def addTypes (types : Entries TypeName TypeDef) :
    List Definition → Logged (Except GrammarError (Entries TypeName TypeDef))
  | [] => ⟨.ok types, []⟩
  | d :: ds =>
    if types.has d.type then
      let rest := addTypes types ds
      ⟨rest.value, .shadowedType d.grammar d.type :: rest.events⟩
    else
      match d.spec.toTypeDef d.type with
      | .error cause => ⟨.error (.malformed cause), []⟩
      | .ok type => addTypes (types.place d.type type) ds

/-- The first definition, by name, that refers to an undefined type, and the
first such type in it. -/
def firstDangling? (g : Grammar) : Option (TypeName × TypeName) :=
  g.types.findSome? fun (name, type) =>
    (type.references.find? fun r => !g.defines r).map (name, ·)

def checkClosed (g : Grammar) : Except GrammarError Unit :=
  match g.firstDangling? with
  | some (source, missing) => .error (.dangling source missing)
  | none =>
    match g.root with
    | some root => if g.defines root then .ok () else .error (.undefinedType root)
    | none => .ok ()

/-- The alternative types that lead back to themselves, by name. -/
def loops (g : Grammar) : List TypeName := (g.types.map (·.1)).filter g.loopsBack

def combine (ds : List GrammarSpec) : Logged (Except GrammarError Grammar) :=
  let added := addTypes [] (GrammarSpec.allDefinitions ds)
  match added.value with
  | .error e => ⟨.error e, added.events⟩
  | .ok types =>
    let g : Grammar := ⟨types, ds.head?.bind (·.root)⟩
    match g.checkClosed with
    | .error e => ⟨.error e, added.events⟩
    | .ok () =>
      ⟨.ok g, added.events ++ g.loops.map .alternativeLoop ++ [.builtGrammar ds.length g.size]⟩

end Grammar
end BlockEdit
