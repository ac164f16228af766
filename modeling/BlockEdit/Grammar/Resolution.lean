/-
From the specification of a type to its definition. Only what the form of
the specification uses is looked at. The first attribute that makes no sense
is the one reported.
-/
import BlockEdit.Grammar.Error
import BlockEdit.Grammar.TypeDef

namespace BlockEdit

namespace AttributeSpec

variable (owner : TypeName) (d : AttributeSpec)

def requiredName : Except Malformation String :=
  match d.name with
  | some name => .ok name
  | none => .error (.unnamedAttribute d.kind owner)

/-- The given bounds, over those that hold by default. -/
def bounds (default : Bounds) : Bounds where
  min := d.atLeast.getD default.min
  max := d.atMost.or default.max

def toGroup (kind : Arrangement) (default : Bounds) : Except Malformation Attribute := do
  let name ← d.requiredName owner
  let bounds := d.bounds default
  if bounds.isExceededBy bounds.min then
    .error (.minAboveMax name owner)
  else
    .ok (.group { name, kind, childTypes := d.types, bounds })

/-- A property takes any text and is not optional unless the specification says
so. A group holds any number of children by default, and a choice exactly
one. -/
def toAttribute : Except Malformation Attribute :=
  match d.kind with
  | .terminal => .ok (.terminal d.symbol)
  | .property => do
    let name ← d.requiredName owner
    .ok (.property { name, literal := d.literal.getD .text, isOptional := d.isOptional.getD false })
  | .sequence => d.toGroup owner .sequence .unbounded
  | .allowed => d.toGroup owner .allowed .unbounded
  | .choice => d.toGroup owner .choice .single

end AttributeSpec

def TypeSpec.toTypeDef (name : TypeName) (d : TypeSpec) :
    Except Malformation TypeDef :=
  match d.kind with
  | .oneOf => if d.oneOf.isEmpty then .error (.noAlternatives name) else .ok (.oneOf d.oneOf)
  | .concrete => do
    let attributes ← d.attributes.mapM (·.toAttribute name)
    .ok (.concrete ⟨attributes⟩)

end BlockEdit
