/-
What can be wrong with a grammar, or with a question asked of it.
-/
import BlockEdit.Grammar.Spec

namespace BlockEdit

/-- A definition that makes no sense by itself. -/
inductive Malformation where
  | noAlternatives (type : TypeName)
  | unnamedAttribute (kind : AttributeForm) (type : TypeName)
  | minAboveMax (group : String) (type : TypeName)
deriving DecidableEq, Repr

def Malformation.message : Malformation → String
  | noAlternatives type => "alternative type " ++ type.display ++ " lists no alternatives"
  | unnamedAttribute kind type => "unnamed " ++ kind.display ++ " attribute on " ++ type.display
  | minAboveMax group type =>
    "group '" ++ group ++ "' of " ++ type.display ++ " has minOccurs above maxOccurs"

inductive GrammarError where
  | malformed (cause : Malformation)
  /-- The definition of `source` refers to `missing`, which has none. -/
  | dangling (source missing : TypeName)
  | undefinedType (type : TypeName)
  /-- The type is no concrete type with a group of this name. -/
  | undeclaredGroup (type : TypeName) (group : String)
deriving DecidableEq, Repr

def GrammarError.message : GrammarError → String
  | malformed cause => "invalid description: " ++ cause.message
  | dangling source missing =>
    "type " ++ source.display ++ " references undefined type " ++ missing.display
  | undefinedType type => "unknown type " ++ type.display
  | undeclaredGroup type group =>
    "type " ++ type.display ++ " declares no child group '" ++ group ++ "'"

end BlockEdit
