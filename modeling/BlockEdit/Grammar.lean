/-
Grammars: the types of one or more languages under their names, and the type
of the root, if it is laid down.

Alternative types may have alternative types as members, also in circles.
So what a type stands for is a matter of reachability: `reach` lists all
names that a name leads to through members of alternative types, depth
first, and `covers`, `standsFor` and `loopsBack` are read off that list.
-/
import BlockEdit.DepthFirst
import BlockEdit.Grammar.Error
import BlockEdit.Grammar.TypeDef

namespace BlockEdit

structure Grammar where
  types : Entries TypeName TypeDef
  root : Option TypeName
deriving DecidableEq, Repr

namespace Grammar

variable (g : Grammar)

/-- The grammar without types. -/
def empty : Grammar := ⟨[], none⟩

/-- The number of types. -/
def size : Nat := g.types.length

def get? (name : TypeName) : Option TypeDef := g.types.get? name

def defines (name : TypeName) : Bool := (g.get? name).isSome

def shape? (name : TypeName) : Option Shape :=
  match g.get? name with
  | some (.concrete c) => some c
  | _ => none

def find (name : TypeName) : Except GrammarError TypeDef :=
  match g.get? name with
  | some type => .ok type
  | none => .error (.undefinedType name)

/-- The group of this name that a concrete type declares. -/
def group (parent : TypeName) (group : String) : Except GrammarError GroupDecl := do
  match ← g.find parent with
  | .concrete c =>
    match c.group? group with
    | some declared => .ok declared
    | none => .error (.undeclaredGroup parent group)
  | .oneOf _ => .error (.undeclaredGroup parent group)

def bounds (parent : TypeName) (group : String) : Except GrammarError Bounds :=
  (g.group parent group).map (·.bounds)

/-! ## Alternatives -/

/-- The members of an alternative type; none for any other name. -/
def members (name : TypeName) : List TypeName :=
  match g.get? name with
  | some (.oneOf members) => members
  | _ => []

/-- All names that the grammar defines or lists as a member. -/
def mentioned : List TypeName := g.types.flatMap fun (name, _) => name :: g.members name

/-- The name and all that it leads to through members of alternative types,
depth first in the order of declaration, each once. -/
def reach (name : TypeName) : List TypeName := depthFirst g.members (name :: g.mentioned) [name]

/-- The actual type is the expected one, or a member leads to it. -/
def covers (expected actual : TypeName) : Bool := actual ∈ g.reach expected

/-- The names of the shapes that a name stands for; a shape stands for itself. -/
def standsFor (name : TypeName) : List TypeName :=
  (g.reach name).filter fun n => (g.shape? n).isSome

/-- A search from the name comes upon a type that has it as a member. -/
def loopsBack (name : TypeName) : Bool := (g.reach name).any fun n => name ∈ g.members n

/-- The group lists the type of the child, directly or as an alternative. -/
def admits (group : GroupDecl) (child : TypeName) : Bool :=
  group.childTypes.any fun allowed => g.covers allowed child

/-- A group of the parent type admits the child; false for groups that are not declared. -/
def admitsChild (parent child : TypeName) (group : String) : Bool :=
  match g.group parent group with
  | .ok declared => g.admits declared child
  | .error _ => false

/-- The shape that a node should have. A concrete type has just one. Of the
shapes that another type stands for, those come into question that declare
whatever the node has; the first of them that misses no property is taken,
or else the first of them. -/
def shapeOf? (n : Node) : Option Shape :=
  match g.get? n.name with
  | none => none
  | some (.concrete c) => some c
  | some (.oneOf _) =>
    let fitting := ((g.standsFor n.name).filterMap g.shape?).filter (·.fits n)
    (fitting.find? (·.isCompleteIn n)).or fitting.head?

end Grammar
end BlockEdit
