import BlockEdit.Digits
import BlockEdit.Entries
import BlockEdit.Entries.Sorted
import BlockEdit.DepthFirst
import BlockEdit.Json
import BlockEdit.Json.Token
import BlockEdit.Json.Lexer
import BlockEdit.Json.Parser
import BlockEdit.Json.Printer
import BlockEdit.Json.Rounding
import BlockEdit.Json.Reading
import BlockEdit.TypeName
import BlockEdit.Location
import BlockEdit.Node
import BlockEdit.Node.WellFormed
import BlockEdit.Node.Path
import BlockEdit.Description
import BlockEdit.Description.Json
import BlockEdit.Description.Text
import BlockEdit.Description.Node
import BlockEdit.Tree
import BlockEdit.Tree.Error
import BlockEdit.Tree.Edit
import BlockEdit.Event
import BlockEdit.Grammar.Bounds
import BlockEdit.Grammar.Literal
import BlockEdit.Grammar.Spec
import BlockEdit.Grammar.Spec.Json
import BlockEdit.Grammar.TypeDef
import BlockEdit.Grammar.Error
import BlockEdit.Grammar.Resolution
import BlockEdit.Grammar
import BlockEdit.Grammar.Combination
import BlockEdit.Fault
import BlockEdit.Inspection
import BlockEdit.Expression
import BlockEdit.Expression.ByNeed
import BlockEdit.Expression.Spec
import BlockEdit.Drop.Placement
import BlockEdit.Drop.Slot
import BlockEdit.Drop.Appearance
import BlockEdit.Proofs.Location.Insertion
import BlockEdit.Proofs.Tree.Insertion
import BlockEdit.Proofs.Grammar.ShapeChoice
import BlockEdit.Proofs.Inspection.NodeFaults
import BlockEdit.Proofs.Inspection.Conformance
import BlockEdit.Proofs.Inspection.Exactness
import BlockEdit.Proofs.Inspection.Relocation
import BlockEdit.Proofs.Inspection.Insertion
import BlockEdit.Proofs.Drop.Slot
import BlockEdit.Proofs.Drop.Strictness
import BlockEdit.Proofs.Drop.Effect
import BlockEdit.Proofs.Location.Removal
import BlockEdit.Proofs.Node.Frame
import BlockEdit.Proofs.Tree.Frame
import BlockEdit.Proofs.Tree.Removal
import BlockEdit.Proofs.Description.RoundTrip
import BlockEdit.Proofs.Tree.Undo
import BlockEdit.Proofs.Tree.Move
import BlockEdit.Proofs.Grammar.MemberChoice
import BlockEdit.Proofs.Inspection.Resolving
import BlockEdit.Proofs.Inspection.Alternatives
import BlockEdit.Proofs.Expression.Reading
import BlockEdit.Proofs.Expression.ByNeed
import BlockEdit.Proofs.Drop.Appearance
import BlockEdit.Proofs.Drop.Shortage
import BlockEdit.Proofs.Drop.Invitation
import BlockEdit.Proofs.Inspection.Subtree
import BlockEdit.Proofs.Tree.Edits
import BlockEdit.Proofs.Inspection.Locality
import BlockEdit.Proofs.Node.Order
import BlockEdit.Proofs.Tree.Order
import BlockEdit.Proofs.Inspection.Order
import BlockEdit.Proofs.Drop.Order
import BlockEdit.Proofs.FirstFailure
import BlockEdit.Proofs.Grammar.Definition
import BlockEdit.Proofs.Grammar.Expansion
import BlockEdit.Proofs.Grammar.Defined
import BlockEdit.Proofs.Grammar.Kept
import BlockEdit.Proofs.Grammar.Acceptance
import BlockEdit.Proofs.Grammar.Merging
import BlockEdit.Proofs.Drop.Placement
import BlockEdit.Proofs.Node.Commuting
import BlockEdit.Proofs.Tree.Commuting
import BlockEdit.Proofs.Description.NormalForm
import BlockEdit.Proofs.Json.Numerals
import BlockEdit.Proofs.Json.Writing
import BlockEdit.Proofs.Json.RoundTrip
import BlockEdit.Proofs.Json.Showing
import BlockEdit.Proofs.Description.Text
import BlockEdit.Proofs.Tree.Arrival
import BlockEdit.Proofs.Tree.Failure
import BlockEdit.Proofs.Drop.EmptyGroup
import BlockEdit.Proofs.Inspection.Parts
import BlockEdit.Proofs.Inspection.Sequence
import BlockEdit.Proofs.Drop.Replacement
import BlockEdit.Proofs.Grammar.Loops
import BlockEdit.Proofs.Drop.Room
import BlockEdit.Proofs.Tree.Properties
import BlockEdit.Proofs.Expression.Conversion
import BlockEdit.Proofs.Location.Order
import BlockEdit.Proofs.Expression.Rewriting
import BlockEdit.Proofs.Tree.Size
