/-
Specifications of expressions, as they stand in configurations, and the
expressions they specify. A specification has room for the parts of every
kind of expression. Only the parts that its own kind uses count, and one of
them that is missing is an error; among several the first counts, in the
order of reading.
-/
import BlockEdit.Expression
import BlockEdit.Json.Parser
import BlockEdit.Json.Reading

namespace BlockEdit

inductive ExpressionForm where
  | value
  | var
  | negation
  | every
  | any
deriving DecidableEq, Repr

structure ExpressionSpec where
  kind : ExpressionForm
  value : Option Bool
  name : Option String
  operand : Option ExpressionSpec
  operands : List ExpressionSpec

/-- A part that an expression of some kind cannot do without. -/
inductive ExpressionError where
  | valueWithoutValue
  | variableWithoutName
  | negationWithoutOperand
deriving DecidableEq, Repr

def ExpressionError.message : ExpressionError → String
  | valueWithoutValue => "invalid description: Value expression without 'value'"
  | variableWithoutName => "invalid description: Variable expression without 'name'"
  | negationWithoutOperand => "invalid description: Not expression without 'expr'"

namespace ExpressionSpec

mutual
def toExpression : ExpressionSpec → Except ExpressionError Expression
  | ⟨.value, some b, _, _, _⟩ => .ok (.const b)
  | ⟨.value, none, _, _, _⟩ => .error .valueWithoutValue
  | ⟨.var, _, some name, _, _⟩ => .ok (.var name)
  | ⟨.var, _, none, _, _⟩ => .error .variableWithoutName
  | ⟨.negation, _, _, some operand, _⟩ => do return .negation (← operand.toExpression)
  | ⟨.negation, _, _, none, _⟩ => .error .negationWithoutOperand
  | ⟨.every, _, _, _, operands⟩ => do return .every (← toExpressions operands)
  | ⟨.any, _, _, _, operands⟩ => do return .any (← toExpressions operands)

def toExpressions : List ExpressionSpec → Except ExpressionError (List Expression)
  | [] => .ok []
  | d :: ds => do
    let e ← d.toExpression
    let es ← toExpressions ds
    return e :: es
end

/-! ## Reading -/

open Json

def kindReader : Reader ExpressionForm :=
  Reader.choice [("value", .value), ("var", .var), ("not", .negation), ("every", .every),
    ("some", .any)]

/-- Reads specifications that nest at most as deep as the given number. -/
def reader : (depth : Nat) → Reader ExpressionSpec
  | 0 => fun _ => none
  | depth + 1 => Reader.record fun fields => do
    let kind ← required fields "type" kindReader
    let value ← optionalField fields "value" Reader.flag
    let name ← optionalField fields "name" Reader.text
    let operand ← optionalField fields "expr" (reader depth)
    let operands ← fieldOr fields "exprs" [] (Reader.list (reader depth))
    return { kind, value, name, operand, operands }

def ofJson? (v : Json) : Option ExpressionSpec := reader v.depth v

def ofText? (text : String) : Option ExpressionSpec := do
  let v ← Json.parse? text
  ofJson? v

end ExpressionSpec
end BlockEdit
