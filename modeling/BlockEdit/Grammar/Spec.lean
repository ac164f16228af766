/-
Grammar specifications: grammars as their authors write them. Most parts may
be left out and nothing is checked here: `Grammar.combine` does that.

A grammar defines types for any number of languages, so that one language
may use the types of another. The order of its definitions carries no
meaning: `definitions` lists them in ascending order of the type names.
-/
import BlockEdit.Entries.Sorted
import BlockEdit.Grammar.Literal
import BlockEdit.TypeName

namespace BlockEdit

inductive AttributeForm where
  | property
  | sequence
  | allowed
  | choice
  | terminal
deriving DecidableEq, Repr

def AttributeForm.display : AttributeForm → String
  | property => "Property"
  | sequence => "Sequence"
  | allowed => "Allowed"
  | choice => "Choice"
  | terminal => "Terminal"

structure AttributeSpec where
  kind : AttributeForm
  name : Option String
  literal : Option Literal
  isOptional : Option Bool
  types : List TypeName
  atLeast : Option Nat
  atMost : Option Nat
  symbol : Option String
deriving DecidableEq, Repr

inductive TypeForm where
  | concrete
  | oneOf
deriving DecidableEq, Repr

/-- A concrete type uses the attributes, an alternative type the members of `oneOf`. -/
structure TypeSpec where
  kind : TypeForm
  attributes : List AttributeSpec
  oneOf : List TypeName
deriving DecidableEq, Repr

structure GrammarSpec where
  name : String
  /-- What the root of a tree should be. -/
  root : Option TypeName
  /-- By language and by name within it. -/
  types : List (String × List (String × TypeSpec))
deriving DecidableEq, Repr

def GrammarSpec.definitions (d : GrammarSpec) : Entries TypeName TypeSpec :=
  Entries.sorted (d.types.flatMap fun (language, types) =>
    types.map fun (name, type) => (⟨language, name⟩, type))

end BlockEdit
