/-
How each place of a tree presents itself while a node is dragged about. The
answer is the value of a boolean expression whose variables are signals, and
it is wanted anew whenever the pointer moves. Four signals cost next to
nothing, and `valid` inspects a whole tree; by-need evaluation pays for it
only where the other signals leave the answer open.

The `Ledger` holds what such questions cost: how often the dear signal was
computed, and what was recorded.
-/
import BlockEdit.Drop.Slot
import BlockEdit.Expression.ByNeed

namespace BlockEdit

inductive Signal where
  /-- The group at the location has no children. -/
  | empty
  /-- The group at the location has room and admits the cargo. -/
  | welcome
  /-- Dropping the cargo leaves a valid tree. -/
  | valid
  /-- The group at the location has too few children. -/
  | short
  /-- Something is being dragged. -/
  | dragging
deriving DecidableEq, Repr

namespace Signal

def all : List Signal := [empty, welcome, valid, short, dragging]

/-- The variable that stands for the signal in expressions. -/
def name : Signal → String
  | empty => "ifEmpty"
  | welcome => "ifLegalDrag"
  | valid => "ifLegalChild"
  | short => "ifChildrenRequired"
  | dragging => "ifAnyDrag"

/-- What the signal says. -/
def holds (t : Tree) (g : Grammar) (l : Location) (cargo : Cargo) (isDragging : Bool) :
    Signal → Bool
  | empty => t.slotIsEmpty l
  | welcome => t.slotTakes g l cargo
  | valid => t.insertLeavesValid g l cargo
  | short => t.slotIsShort g l
  | dragging => isDragging

end Signal

/-- What has been spent on answers. -/
structure Ledger where
  /-- How many times a drop was tried out. -/
  trials : Nat
  events : List Event
deriving DecidableEq, Repr

namespace Ledger

def empty : Ledger := ⟨0, []⟩

def record (ledger : Ledger) (events : List Event) : Ledger :=
  { ledger with events := ledger.events ++ events }

/-- Enters a drop that was tried out. -/
def addTrial (ledger : Ledger) (events : List Event) : Ledger :=
  ⟨ledger.trials + 1, ledger.events ++ events⟩

end Ledger

/-- What is being dragged, if anything, and the place that the pointer is over. -/
structure Drag where
  cargo : Option Cargo
  pointer : Option Location

def Drag.isUnderWay (d : Drag) : Bool := d.cargo.isSome

inductive Appearance where
  /-- Nothing is being dragged. -/
  | idle
  /-- This is the place under the pointer. -/
  | pointedAt
  /-- The place asks for the cargo. -/
  | inviting
  | refusing
deriving DecidableEq, Repr

/-- The expression for places that have none of their own. -/
def usualVisibility : Expression := .var Signal.welcome.name

namespace Tree

variable (t : Tree) (g : Grammar) (l : Location)

/-- `dragging` is known beforehand; every other signal is deferred. -/
def bindingOf (cargo : Cargo) (isDragging : Bool) : Signal → Binding Ledger
  | .dragging => .fixed isDragging
  | .valid => .deferred fun ledger =>
    let tried := t.tryInsert g l cargo
    (tried.value, ledger.addTrial tried.events)
  | s => .deferred fun ledger => (s.holds t g l cargo isDragging, ledger)

def signalBindings (cargo : Cargo) (isDragging : Bool) : Bindings Ledger :=
  Signal.all.map fun s => (s.name, t.bindingOf g l cargo isDragging s)

/-- How the place at the location presents itself during the drag. -/
def appearance (drag : Drag) (visibility : Option Expression) (ledger : Ledger) :
    Appearance × Ledger :=
  match drag.cargo with
  | none => (.idle, ledger)
  | some cargo =>
    if drag.pointer = some l then (.pointedAt, ledger)
    else
      let (invited, done) :=
        (visibility.getD usualVisibility).run (t.signalBindings g l cargo true) ledger
      (if invited then .inviting else .refusing, done.world.record [.judgedTarget l invited])

end Tree
end BlockEdit
