/-
Boolean expressions over named variables. They say when something is to be
shown, and know nothing of trees and grammars.

`holds` is what an expression means: its value once every name has one. It
hangs on the names that occur and on no others (`holds_congr`).
-/
namespace BlockEdit

inductive Expression where
  | const (b : Bool)
  | var (name : String)
  | negation (operand : Expression)
  /-- The conjunction; true without operands. -/
  | every (operands : List Expression)
  /-- The disjunction; false without operands. -/
  | any (operands : List Expression)

namespace Expression

/-- What passes from operands to expressions made of them holds of every expression. -/
@[elab_as_elim]
theorem induct {P : Expression → Prop} (e : Expression) (const : ∀ b, P (.const b))
    (var : ∀ name, P (.var name)) (negation : ∀ operand, P operand → P (.negation operand))
    (every : ∀ operands, (∀ o ∈ operands, P o) → P (.every operands))
    (any : ∀ operands, (∀ o ∈ operands, P o) → P (.any operands)) : P e :=
  @Expression.rec P (fun operands => ∀ o ∈ operands, P o) const var negation every any
    nofun (fun _ _ ho hos => List.forall_mem_cons.2 ⟨ho, hos⟩) e

/-! ## Variables -/

mutual
/-- The names of all variables as they stand in the expression, from left to right. -/
def occurrences : Expression → List String
  | const _ => []
  | var name => [name]
  | negation operand => operand.occurrences
  | every operands => operandOccurrences operands
  | any operands => operandOccurrences operands

def operandOccurrences : List Expression → List String
  | [] => []
  | e :: es => e.occurrences ++ operandOccurrences es
end

theorem operandOccurrences_eq (es : List Expression) :
    operandOccurrences es = es.flatMap occurrences := by
  induction es with
  | nil => rfl
  | cons e es ih => rw [operandOccurrences, ih, List.flatMap_cons]

/-- The names of the variables, each where it first occurs. -/
def variableNames (e : Expression) : List String := e.occurrences.eraseDups

/-! ## Meaning -/

section
variable (v : String → Bool)

mutual
/-- The value of the expression where each name has the value that `v` gives it. -/
def holds : Expression → Bool
  | const b => b
  | var name => v name
  | negation operand => !operand.holds
  | every operands => allHold operands
  | any operands => someHolds operands

def allHold : List Expression → Bool
  | [] => true
  | e :: es => e.holds && allHold es

def someHolds : List Expression → Bool
  | [] => false
  | e :: es => e.holds || someHolds es
end

theorem holds_every (es : List Expression) : (every es).holds v = (es.map (holds v)).and := by
  rw [holds]
  induction es with
  | nil => rfl
  | cons e es ih => rw [allHold, ih, List.map_cons, List.and_cons]

theorem holds_any (es : List Expression) : (any es).holds v = (es.map (holds v)).or := by
  rw [holds]
  induction es with
  | nil => rfl
  | cons e es ih => rw [someHolds, ih, List.map_cons, List.or_cons]
end

/-- Names that do not occur are of no account. -/
theorem holds_congr {v w : String → Bool} (e : Expression)
    (h : ∀ name ∈ e.occurrences, v name = w name) : e.holds v = e.holds w := by
  induction e using induct with
  | const b => simp only [holds]
  | var name => simpa only [holds] using h name (by simp only [occurrences, List.mem_singleton])
  | negation operand ih =>
    simp only [occurrences] at h
    simp only [holds, ih h]
  | every operands ih =>
    simp only [occurrences, operandOccurrences_eq] at h
    rw [holds_every, holds_every, List.map_congr_left fun o ho =>
      ih o ho fun name hn => h name (List.mem_flatMap.2 ⟨o, ho, hn⟩)]
  | any operands ih =>
    simp only [occurrences, operandOccurrences_eq] at h
    rw [holds_any, holds_any, List.map_congr_left fun o ho =>
      ih o ho fun name hn => h name (List.mem_flatMap.2 ⟨o, ho, hn⟩)]

end Expression
end BlockEdit
