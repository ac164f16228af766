/-
Faults: the places where a tree and a grammar disagree. A fault is no error
of the program; it names the node it is reported on and what is wrong
there.
-/
import BlockEdit.Grammar.Literal
import BlockEdit.Location
import BlockEdit.TypeName

namespace BlockEdit

namespace Fault

inductive Cause where
  /-- This many children are wanting. -/
  | groupShort (group : String) (missing : Nat)
  /-- There are more children present than the maximum. -/
  | groupOverfull (group : String) (max present : Nat)
  /-- The group does not admit the type of this child. -/
  | childRefused (group : String) (present : TypeName)
  /-- The type declares no group of this name. -/
  | groupUndeclared (group : String)
  | propertyMissing (property : String)
  /-- The type declares no property of this name. -/
  | propertyUndeclared (property : String)
  /-- The value is no literal of the declared kind. -/
  | valueRefused (property : String) (expected : Literal) (value : String)
  | undefinedType (type : TypeName)
  /-- Every shape that the type stands for lacks something that the node has. -/
  | noShapeFits (type : TypeName) (alternatives : List TypeName)
  /-- The type of the root is not covered by the grammar's root type. -/
  | rootRefused (expected present : TypeName)
deriving DecidableEq, Repr

namespace Cause

/-- The name under which this kind of fault is known. -/
def code : Cause → String
  | groupShort .. => "MissingChild"
  | groupOverfull .. => "TooManyChildren"
  | childRefused .. => "IllegalChildType"
  | groupUndeclared .. => "UnexpectedChildGroup"
  | propertyMissing .. => "MissingProperty"
  | propertyUndeclared .. => "UnexpectedProperty"
  | valueRefused .. => "IllegalPropertyType"
  | undefinedType .. => "UnknownType"
  | noShapeFits .. => "NoMatchingAlternative"
  | rootRefused .. => "UnexpectedRoot"

def details : Cause → String
  | groupShort group missing => "group '" ++ group ++ "' needs " ++ toString missing ++ " more"
  | groupOverfull group max present =>
    "group '" ++ group ++ "' allows " ++ toString max ++ ", has " ++ toString present
  | childRefused group present =>
    present.display ++ " is not allowed in group '" ++ group ++ "'"
  | groupUndeclared group => "group '" ++ group ++ "'"
  | propertyMissing property | propertyUndeclared property => "property '" ++ property ++ "'"
  | valueRefused property expected value =>
    "property '" ++ property ++ "' expects " ++ expected.display ++ ", got '" ++ value ++ "'"
  | undefinedType type => type.display
  | noShapeFits type alternatives =>
    type.display ++ " tried [" ++ ", ".intercalate (alternatives.map TypeName.display) ++ "]"
  | rootRefused expected present =>
    "expected " ++ expected.display ++ ", found " ++ present.display

end Cause
end Fault

structure Fault where
  location : Location
  cause : Fault.Cause
deriving DecidableEq, Repr

def Fault.display (f : Fault) : String :=
  f.cause.code ++ " at " ++ f.location.display ++ ": " ++ f.cause.details

end BlockEdit
