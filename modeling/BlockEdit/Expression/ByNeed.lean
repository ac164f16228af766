/-
Evaluation by need. A name stands for a fixed value or for a deferred
computation, which may look at a world and change it. A computation runs
when evaluation first reaches its name, and its answer is kept for the rest
of the evaluation. Operands are taken from left to right, and those after
the one that decides are not looked at.

Names without a binding are false.
-/
import BlockEdit.Entries
import BlockEdit.Expression

namespace BlockEdit

inductive Binding (σ : Type) where
  | fixed (b : Bool)
  | deferred (compute : σ → Bool × σ)

abbrev Bindings (σ : Type) := Entries String (Binding σ)

/-- How far an evaluation has come. -/
structure EvalState (σ : Type) where
  /-- The variables met so far and what they are. -/
  known : Entries String Bool
  /-- The variables whose computations have run, in order. -/
  calls : List String
  world : σ

namespace EvalState

variable {σ : Type}

def start (world : σ) : EvalState σ := ⟨[], [], world⟩

def remember (s : EvalState σ) (name : String) (b : Bool) : EvalState σ :=
  { s with known := s.known.put name b }

/-- Runs the computation of a variable. -/
def call (s : EvalState σ) (name : String) (compute : σ → Bool × σ) : Bool × EvalState σ :=
  let (b, world) := compute s.world
  (b, ⟨s.known.put name b, s.calls ++ [name], world⟩)

def readVar (s : EvalState σ) (vars : Bindings σ) (name : String) : Bool × EvalState σ :=
  match s.known.get? name with
  | some b => (b, s)
  | none =>
    match vars.get? name with
    | some (.fixed b) => (b, s.remember name b)
    | some (.deferred compute) => s.call name compute
    | none => (false, s.remember name false)

end EvalState

namespace Expression

variable {σ : Type} (vars : Bindings σ)

mutual
def eval : Expression → EvalState σ → Bool × EvalState σ
  | const b, s => (b, s)
  | var name, s => s.readVar vars name
  | negation operand, s =>
    let (b, s) := eval operand s
    (!b, s)
  | every operands, s => evalEvery operands s
  | any operands, s => evalAny operands s

def evalEvery : List Expression → EvalState σ → Bool × EvalState σ
  | [], s => (true, s)
  | e :: es, s =>
    let (b, s) := eval e s
    if b then evalEvery es s else (false, s)

def evalAny : List Expression → EvalState σ → Bool × EvalState σ
  | [], s => (false, s)
  | e :: es, s =>
    let (b, s) := eval e s
    if b then (true, s) else evalAny es s
end

/-- The value of the expression, and the evaluation as it ends. -/
def run (e : Expression) (vars : Bindings σ) (world : σ) : Bool × EvalState σ :=
  e.eval vars (.start world)

end Expression
end BlockEdit
