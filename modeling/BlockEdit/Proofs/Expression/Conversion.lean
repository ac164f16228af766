/-
What becomes of a specification as an expression. The kind of a specification
says which of its fields count, and so which specifications below it are in use
(`ExpressionSpec.Uses`). Laid out in the order of reading, each ahead of its own
parts, they are `ExpressionSpec.used`.

One that lacks a field its kind uses makes the conversion fail, and the first of
them is the one that is reported (`toExpression_eq_error_iff`). Else there is an
expression, which mirrors the specifications in use one to one
(`toExpression_eq_ok_iff`). What stands in all the other fields is of no account,
at whatever depth: it may as well be left out (`toExpression_pruned`).
-/
import BlockEdit.Expression.Spec
import BlockEdit.Proofs.FirstFailure
import Mathlib.Data.List.Forall2
import Mathlib.Logic.Relation

namespace BlockEdit

/-- The kind of the specification that is at fault. -/
def ExpressionError.kind : ExpressionError → ExpressionForm
  | valueWithoutValue => .value
  | variableWithoutName => .var
  | negationWithoutOperand => .negation

/-- The field that it lacks. -/
def ExpressionError.field : ExpressionError → String
  | valueWithoutValue => "value"
  | variableWithoutName => "name"
  | negationWithoutOperand => "expr"

/-- The kind as messages name it. -/
def ExpressionForm.title : ExpressionForm → String
  | value => "Value"
  | var => "Variable"
  | negation => "Not"
  | every => "Every"
  | any => "Some"

theorem ExpressionError.message_eq (e : ExpressionError) : e.message =
    "invalid description: " ++ e.kind.title ++ " expression without '" ++ e.field ++ "'" := by
  cases e <;> decide

namespace ExpressionSpec

/-- What passes from the specifications in the fields of one to it holds of every one. -/
@[elab_as_elim]
theorem induct {P : ExpressionSpec → Prop} (d : ExpressionSpec)
    (step : ∀ d, (∀ o ∈ d.operand, P o) → (∀ o ∈ d.operands, P o) → P d) : P d :=
  @ExpressionSpec.rec P (fun operand => ∀ o ∈ operand, P o) (fun operands => ∀ o ∈ operands, P o)
    (fun _ _ _ _ _ ho hos => step _ ho hos)
    nofun (fun _ h _ ho => Option.some.inj ho ▸ h)
    nofun (fun _ _ ho hos => List.forall_mem_cons.2 ⟨ho, hos⟩) d

/-! ## What is in use -/

/-- The specifications in the fields that the kind uses. -/
def parts (d : ExpressionSpec) : List ExpressionSpec :=
  match d.kind with
  | .value | .var => []
  | .negation => d.operand.toList
  | .every | .any => d.operands

/-- The second specification is the first, or a part of one that the first uses. -/
def Uses : ExpressionSpec → ExpressionSpec → Prop :=
  Relation.ReflTransGen fun d o => o ∈ d.parts

mutual
/-- The specifications in use, each ahead of its parts, and these from left to right. -/
def used : ExpressionSpec → List ExpressionSpec
  | d@⟨.negation, _, _, some operand, _⟩ => d :: operand.used
  | d@⟨.every, _, _, _, operands⟩ => d :: allUsed operands
  | d@⟨.any, _, _, _, operands⟩ => d :: allUsed operands
  | d => [d]

def allUsed : List ExpressionSpec → List ExpressionSpec
  | [] => []
  | d :: ds => d.used ++ allUsed ds
end

theorem allUsed_eq : ∀ ds, allUsed ds = ds.flatMap used
  | [] => rfl
  | d :: ds => by rw [allUsed, allUsed_eq ds, List.flatMap_cons]

theorem used_eq (d : ExpressionSpec) : d.used = d :: d.parts.flatMap used := by
  obtain ⟨kind, value, name, operand, operands⟩ := d
  cases kind with
  | value | var => rfl
  | negation => cases operand <;> simp [used, parts]
  | every | any => simp [used, parts, allUsed_eq]

theorem mem_used_iff {d u : ExpressionSpec} : u ∈ d.used ↔ d.Uses u := by
  induction d using induct with
  | step d hoperand hoperands =>
    have hparts : ∀ o ∈ d.parts, (u ∈ o.used ↔ o.Uses u) := by
      intro o ho
      unfold parts at ho
      split at ho
      · cases ho
      · cases ho
      · exact hoperand o (Option.mem_toList.1 ho)
      · exact hoperands o ho
      · exact hoperands o ho
    rw [used_eq, List.mem_cons, List.mem_flatMap, Uses, Relation.ReflTransGen.cases_head_iff]
    refine or_congr eq_comm (exists_congr fun o => and_congr_right fun ho => ?_)
    exact hparts o ho

/-! ## What is missing -/

/-- What the specification lacks of that which its kind cannot do without. -/
def lacks? (d : ExpressionSpec) : Option ExpressionError :=
  match d.kind with
  | .value => if d.value.isNone then some .valueWithoutValue else none
  | .var => if d.name.isNone then some .variableWithoutName else none
  | .negation => if d.operand.isNone then some .negationWithoutOperand else none
  | .every | .any => none

theorem kind_of_lacks? {d : ExpressionSpec} {e : ExpressionError} (h : d.lacks? = some e) :
    d.kind = e.kind := by
  unfold lacks? at h
  split at h <;> grind [ExpressionError.kind]

/-! ## Conversion, kind by kind -/

theorem toExpressions_eq_mapM : ∀ ds, toExpressions ds = ds.mapM toExpression
  | [] => rfl
  | d :: ds => by rw [toExpressions, toExpressions_eq_mapM ds, List.mapM_cons]

theorem toExpressions_eq_error_iff {ds : List ExpressionSpec} {e : ExpressionError}
    (h : ∀ d ∈ ds, ∀ e, d.toExpression = .error e ↔ d.used.findSome? lacks? = some e) :
    toExpressions ds = .error e ↔ (ds.flatMap used).findSome? lacks? = some e := by
  rw [toExpressions_eq_mapM]
  induction ds with
  | nil => simp [pure, Except.pure]
  | cons d ds ih =>
    obtain ⟨hd, hds⟩ := List.forall_mem_cons.1 h
    have hok : (∃ x, d.toExpression = .ok x) ↔ d.used.findSome? lacks? = none := by
      simp only [exists_ok_iff, hd, Option.eq_none_iff_forall_ne_some, not_exists, ne_eq]
    rw [mapM_cons_eq_error_iff, ih hds, exists_and_right, hok, hd, List.flatMap_cons,
      List.findSome?_append, Option.or_eq_some_iff]

/-- What is reported is what the first in use lacks. -/
theorem toExpression_eq_error_iff {d : ExpressionSpec} {e : ExpressionError} :
    d.toExpression = .error e ↔ d.used.findSome? lacks? = some e := by
  induction d using induct generalizing e with
  | step d hoperand hoperands =>
    obtain ⟨kind, value, name, operand, operands⟩ := d
    have hall : toExpressions operands = .error e ↔
        (operands.flatMap used).findSome? lacks? = some e :=
      toExpressions_eq_error_iff fun o ho _ => hoperands o ho
    cases kind with
    | value => cases value <;> simp [toExpression, used, lacks?]
    | var => cases name <;> simp [toExpression, used, lacks?]
    | negation =>
      cases operand with
      | none => simp [toExpression, used, lacks?]
      | some o =>
        rw [toExpression, bind_pure_eq_error_iff, hoperand o rfl]
        rfl
    | every | any =>
      rw [toExpression, bind_pure_eq_error_iff, hall, used_eq]
      rfl

/-! ## What there is -/

/-- The expression says what the specifications in use say, each for each and in order. -/
inductive Mirrors : ExpressionSpec → Expression → Prop where
  | value {d : ExpressionSpec} {b : Bool} (kind : d.kind = .value) (value : d.value = some b) :
      Mirrors d (.const b)
  | var {d : ExpressionSpec} {name : String} (kind : d.kind = .var) (named : d.name = some name) :
      Mirrors d (.var name)
  | negation {d o : ExpressionSpec} {e : Expression} (kind : d.kind = .negation)
      (operand : d.operand = some o) (mirrored : Mirrors o e) : Mirrors d (.negation e)
  | every {d : ExpressionSpec} {es : List Expression} (kind : d.kind = .every)
      (mirrored : List.Forall₂ Mirrors d.operands es) : Mirrors d (.every es)
  | any {d : ExpressionSpec} {es : List Expression} (kind : d.kind = .any)
      (mirrored : List.Forall₂ Mirrors d.operands es) : Mirrors d (.any es)

theorem toExpressions_eq_ok_iff {ds : List ExpressionSpec} {es : List Expression}
    (h : ∀ d ∈ ds, ∀ e, d.toExpression = .ok e ↔ d.Mirrors e) :
    toExpressions ds = .ok es ↔ List.Forall₂ Mirrors ds es := by
  rw [toExpressions_eq_mapM]
  induction ds generalizing es with
  | nil => simp [pure, Except.pure, eq_comm]
  | cons d ds ih =>
    obtain ⟨hd, hds⟩ := List.forall_mem_cons.1 h
    simp only [mapM_cons_eq_ok_iff, ih hds, hd, List.forall₂_cons_left_iff]

section
variable {d : ExpressionSpec} {e : Expression}
  (hoperand : ∀ o ∈ d.operand, ∀ e, o.toExpression = .ok e ↔ o.Mirrors e)
  (hoperands : ∀ o ∈ d.operands, ∀ e, o.toExpression = .ok e ↔ o.Mirrors e)
include hoperand hoperands

theorem mirrors_of_toExpression (h : d.toExpression = .ok e) : d.Mirrors e := by
  obtain ⟨kind, value, name, operand, operands⟩ := d
  cases kind with
  | value =>
    cases value with
    | none => cases h
    | some b =>
      cases h
      exact .value rfl rfl
  | var =>
    cases name with
    | none => cases h
    | some name =>
      cases h
      exact .var rfl rfl
  | negation =>
    cases operand with
    | none => cases h
    | some o =>
      rw [toExpression, bind_pure_eq_ok_iff] at h
      obtain ⟨e, ho, rfl⟩ := h
      exact .negation rfl rfl ((hoperand o rfl e).1 ho)
  | every =>
    rw [toExpression, bind_pure_eq_ok_iff] at h
    obtain ⟨es, hos, rfl⟩ := h
    exact .every rfl ((toExpressions_eq_ok_iff hoperands).1 hos)
  | any =>
    rw [toExpression, bind_pure_eq_ok_iff] at h
    obtain ⟨es, hos, rfl⟩ := h
    exact .any rfl ((toExpressions_eq_ok_iff hoperands).1 hos)

theorem toExpression_of_mirrors (h : d.Mirrors e) : d.toExpression = .ok e := by
  obtain ⟨kind, value, name, operand, operands⟩ := d
  cases h with
  | value kind value =>
    cases kind
    cases value
    rfl
  | var kind named =>
    cases kind
    cases named
    rfl
  | negation kind used mirrored =>
    cases kind
    cases used
    rw [toExpression, bind_pure_eq_ok_iff]
    exact ⟨_, (hoperand _ rfl _).2 mirrored, rfl⟩
  | every kind mirrored =>
    cases kind
    rw [toExpression, bind_pure_eq_ok_iff]
    exact ⟨_, (toExpressions_eq_ok_iff hoperands).2 mirrored, rfl⟩
  | any kind mirrored =>
    cases kind
    rw [toExpression, bind_pure_eq_ok_iff]
    exact ⟨_, (toExpressions_eq_ok_iff hoperands).2 mirrored, rfl⟩

end

/-- What there is mirrors what is in use, and what does is there. -/
theorem toExpression_eq_ok_iff {d : ExpressionSpec} {e : Expression} :
    d.toExpression = .ok e ↔ d.Mirrors e := by
  induction d using induct generalizing e with
  | step d hoperand hoperands =>
    have hoperand' := fun o ho e => hoperand o ho (e := e)
    have hoperands' := fun o ho e => hoperands o ho (e := e)
    exact ⟨mirrors_of_toExpression hoperand' hoperands',
      toExpression_of_mirrors hoperand' hoperands'⟩

/-! ## What is not in use -/

mutual
/-- The specification with nothing in the fields that are not in use, here and in its parts. -/
def pruned : ExpressionSpec → ExpressionSpec
  | ⟨.value, value, _, _, _⟩ => ⟨.value, value, none, none, []⟩
  | ⟨.var, _, name, _, _⟩ => ⟨.var, none, name, none, []⟩
  | ⟨.negation, _, _, none, _⟩ => ⟨.negation, none, none, none, []⟩
  | ⟨.negation, _, _, some operand, _⟩ => ⟨.negation, none, none, some operand.pruned, []⟩
  | ⟨.every, _, _, _, operands⟩ => ⟨.every, none, none, none, allPruned operands⟩
  | ⟨.any, _, _, _, operands⟩ => ⟨.any, none, none, none, allPruned operands⟩

def allPruned : List ExpressionSpec → List ExpressionSpec
  | [] => []
  | d :: ds => d.pruned :: allPruned ds
end

theorem toExpressions_allPruned {ds : List ExpressionSpec}
    (h : ∀ d ∈ ds, d.pruned.toExpression = d.toExpression) :
    toExpressions (allPruned ds) = toExpressions ds := by
  induction ds with
  | nil => rfl
  | cons d ds ih =>
    obtain ⟨hd, hds⟩ := List.forall_mem_cons.1 h
    rw [allPruned, toExpressions, toExpressions, hd, ih hds]

/-- What is not in use may be left out. -/
theorem toExpression_pruned (d : ExpressionSpec) : d.pruned.toExpression = d.toExpression := by
  induction d using induct with
  | step d hoperand hoperands =>
    obtain ⟨kind, value, name, operand, operands⟩ := d
    cases kind with
    | value => cases value <;> rfl
    | var => cases name <;> rfl
    | negation =>
      cases operand with
      | none => rfl
      | some o => rw [pruned, toExpression, toExpression, hoperand o rfl]
    | every | any => rw [pruned, toExpression, toExpression, toExpressions_allPruned hoperands]

/-- **From a specification to an expression.** It is made just when no specification in use
lacks what its kind cannot do without, and then it mirrors those in use. Otherwise the report
is about the first of them, in the order of reading, that lacks something, and names its kind and
the field. Specifications that differ at most in what is not in use have the same outcome. -/
theorem toExpression_outcomes (d : ExpressionSpec) :
    ((∃ e, d.toExpression = .ok e) ↔ ∀ u, d.Uses u → u.lacks? = none) ∧
    (∀ e, d.toExpression = .ok e ↔ d.Mirrors e) ∧
    (∀ err, d.toExpression = .error err ↔
      ∃ u, IsFirst (·.lacks? ≠ none) d.used u ∧ u.lacks? = some err ∧
        err.message = "invalid description: " ++ u.kind.title ++
          " expression without '" ++ err.field ++ "'") ∧
    ∀ d' : ExpressionSpec, d'.pruned = d.pruned → d'.toExpression = d.toExpression := by
  refine ⟨?_, fun e => toExpression_eq_ok_iff, fun err => ?_, fun d' h => ?_⟩
  · simp only [exists_ok_iff, toExpression_eq_error_iff, not_exists, ← ne_eq,
      ← Option.eq_none_iff_forall_ne_some, List.findSome?_eq_none_iff, mem_used_iff]
  · rw [toExpression_eq_error_iff, findSome?_eq_some_iff_isFirst]
    refine exists_congr fun u => and_congr_right fun _ => ?_
    refine ⟨fun h => ⟨h, ?_⟩, fun h => h.1⟩
    rw [err.message_eq, kind_of_lacks? h]
  · rw [← toExpression_pruned d', h, toExpression_pruned]

/-- A constant and a variable that lacks its name. -/
def unnamed : ExpressionSpec :=
  ⟨.any, none, none, none, [⟨.value, some false, none, none, []⟩, ⟨.var, none, none, none, []⟩]⟩

/-- The same with a negation of nothing in a field of the constant, which comes ahead of the
variable, and in one of the whole. -/
def cluttered : ExpressionSpec :=
  ⟨.any, none, none, some ⟨.negation, none, none, none, []⟩,
    [⟨.value, some false, none, none, [⟨.negation, none, none, none, []⟩]⟩,
      ⟨.var, none, none, none, []⟩]⟩

theorem toExpression_cluttered :
    cluttered.pruned = unnamed.pruned ∧ cluttered.toExpression = .error .variableWithoutName := by
  have h : cluttered.pruned = unnamed.pruned := rfl
  exact ⟨h, ((toExpression_outcomes unnamed).2.2.2 cluttered h).trans rfl⟩

end ExpressionSpec
end BlockEdit
