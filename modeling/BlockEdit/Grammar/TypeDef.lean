/-
Types as a grammar holds them. A concrete type has attributes, in the order
of their declaration; an alternative type stands for any one of its members.
-/
import BlockEdit.Grammar.Bounds
import BlockEdit.Grammar.Literal
import BlockEdit.Node

namespace BlockEdit

structure Property where
  name : String
  literal : Literal
  /-- Whether a node may do without it. -/
  isOptional : Bool
deriving DecidableEq, Repr

inductive Arrangement where
  /-- Children whose order means something. -/
  | sequence
  /-- Children whose order means nothing. -/
  | allowed
  /-- A child of any one of several types. -/
  | choice
deriving DecidableEq, Repr

structure GroupDecl where
  name : String
  kind : Arrangement
  /-- Alternative types may be among them. -/
  childTypes : List TypeName
  bounds : Bounds
deriving DecidableEq, Repr

inductive Attribute where
  | property (property : Property)
  | group (group : GroupDecl)
  /-- Concrete syntax, with the symbol that shows it. -/
  | terminal (symbol : Option String)
deriving DecidableEq, Repr

structure Shape where
  attributes : List Attribute
deriving DecidableEq, Repr

namespace Shape

def properties (c : Shape) : List Property :=
  c.attributes.filterMap fun | .property p => some p | _ => none

def groups (c : Shape) : List GroupDecl :=
  c.attributes.filterMap fun | .group g => some g | _ => none

/-- The first declaration of a property of this name. -/
def property? (c : Shape) (name : String) : Option Property :=
  c.properties.find? (·.name = name)

/-- The first declaration of a group of this name. -/
def group? (c : Shape) (name : String) : Option GroupDecl :=
  c.groups.find? (·.name = name)

/-- All properties and groups that the node has are declared. -/
def fits (c : Shape) (n : Node) : Bool :=
  n.properties.all (fun p => (c.property? p.1).isSome) &&
    n.groups.all fun g => (c.group? g.1).isSome

/-- The node has all properties that are not optional. -/
def isCompleteIn (c : Shape) (n : Node) : Bool :=
  c.properties.all fun p => p.isOptional || (n.property? p.name).isSome

end Shape

inductive TypeDef where
  | concrete (type : Shape)
  | oneOf (members : List TypeName)
deriving DecidableEq, Repr

/-- The types that a definition refers to, in the order of its text. -/
def TypeDef.references : TypeDef → List TypeName
  | concrete c => c.groups.flatMap (·.childTypes)
  | oneOf members => members

end BlockEdit
