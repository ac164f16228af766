/-
Rewriting expressions by the laws of Boolean algebra. Negations may be pushed
inwards and taken back out, and operands of a conjunction in a conjunction, or
of a disjunction in a disjunction, may stand in its place. None of this is seen
by an evaluation: the same variables are read in the same order, and the same
operand decides. Laws that would change which variables are read, such as
commutativity or absorption, are not among them.

An evaluation passes through operands as through a list, one stretch after the
other (`evalUntil_append`), so what is evaluated alike may be put for one another
anywhere, and as often as one likes (`run_of_rewritings`).
-/
import BlockEdit.Proofs.Expression.Reading
import Mathlib.Logic.Relation

namespace BlockEdit.Expression

/-- One law, applied to the whole expression. -/
inductive Law : Expression → Expression → Prop where
  | negationEvery (es : List Expression) :
      Law (.negation (.every es)) (.any (es.map .negation))
  | negationAny (es : List Expression) :
      Law (.negation (.any es)) (.every (es.map .negation))
  | negationNegation (e : Expression) : Law (.negation (.negation e)) e
  | everyEvery (before es after : List Expression) :
      Law (.every (before ++ [.every es] ++ after)) (.every (before ++ es ++ after))
  | anyAny (before es after : List Expression) :
      Law (.any (before ++ [.any es] ++ after)) (.any (before ++ es ++ after))

/-- One law, applied somewhere in the expression. -/
inductive RewritesTo : Expression → Expression → Prop where
  | law {e e' : Expression} (h : Law e e') : RewritesTo e e'
  | negation {e e' : Expression} (h : RewritesTo e e') : RewritesTo (.negation e) (.negation e')
  | every {e e' : Expression} (before after : List Expression) (h : RewritesTo e e') :
      RewritesTo (.every (before ++ [e] ++ after)) (.every (before ++ [e'] ++ after))
  | any {e e' : Expression} (before after : List Expression) (h : RewritesTo e e') :
      RewritesTo (.any (before ++ [e] ++ after)) (.any (before ++ [e'] ++ after))

variable {σ : Type} {vars : Bindings σ} {e e' : Expression}

/-! ## Operands, stretch by stretch -/

theorem evalUntil_append (stop : Bool) (es fs : List Expression) (s : EvalState σ) :
    evalUntil vars stop (es ++ fs) s =
      if (evalUntil vars stop es s).1 = stop then evalUntil vars stop es s
      else evalUntil vars stop fs (evalUntil vars stop es s).2 := by
  induction es generalizing s with
  | nil => simp [evalUntil]
  | cons e es ih =>
    rw [List.cons_append, evalUntil, evalUntil]
    split
    · rw [if_pos rfl]
    · exact ih _

theorem evalUntil_singleton (stop : Bool) (e : Expression) (s : EvalState σ) :
    evalUntil vars stop [e] s = e.eval vars s := by
  obtain ⟨b, s', h⟩ : ∃ b s', e.eval vars s = (b, s') := ⟨_, _, rfl⟩
  rw [evalUntil, evalUntil, h]
  cases b <;> cases stop <;> rfl

/-- In the place of an operand may stand others that are gone through as it is evaluated. -/
theorem evalUntil_replace {stop : Bool} {e : Expression} {es : List Expression}
    (h : ∀ s, e.eval vars s = evalUntil vars stop es s) (before after : List Expression)
    (s : EvalState σ) : evalUntil vars stop (before ++ [e] ++ after) s =
      evalUntil vars stop (before ++ es ++ after) s := by
  simp only [evalUntil_append, evalUntil_singleton, h]

theorem eval_negation (e : Expression) (s : EvalState σ) :
    (negation e).eval vars s = (!(e.eval vars s).1, (e.eval vars s).2) := rfl

/-- Negated operands are gone through alike, up to the one that has the other value. -/
theorem evalUntil_map_negation (stop : Bool) (es : List Expression) (s : EvalState σ) :
    evalUntil vars (!stop) (es.map negation) s =
      (!(evalUntil vars stop es s).1, (evalUntil vars stop es s).2) := by
  induction es generalizing s with
  | nil => simp [evalUntil]
  | cons e es ih =>
    rw [List.map_cons, evalUntil, evalUntil, eval_negation]
    by_cases hstop : (e.eval vars s).1 = stop
    · rw [if_pos hstop, if_pos (congrArg _ hstop)]
    · rw [if_neg hstop, if_neg fun h => hstop (Bool.not_inj h), ih]

/-! ## Expressions -/

theorem eval_of_law (h : Law e e') (s : EvalState σ) : e'.eval vars s = e.eval vars s := by
  cases h with
  | negationEvery es =>
    rw [eval_any, eval_negation, eval_every, ← evalUntil_map_negation, Bool.not_false]
  | negationAny es =>
    rw [eval_every, eval_negation, eval_any, ← evalUntil_map_negation, Bool.not_true]
  | negationNegation e => rw [eval_negation, eval_negation, Bool.not_not]
  | everyEvery before es after =>
    rw [eval_every, eval_every]
    exact (evalUntil_replace (eval_every vars es) before after s).symm
  | anyAny before es after =>
    rw [eval_any, eval_any]
    exact (evalUntil_replace (eval_any vars es) before after s).symm

theorem eval_of_rewritesTo (h : RewritesTo e e') (s : EvalState σ) :
    e'.eval vars s = e.eval vars s := by
  induction h generalizing s with
  | law h => exact eval_of_law h s
  | negation _ ih => rw [eval_negation, eval_negation, ih]
  | every before after _ ih =>
    rw [eval_every, eval_every]
    refine evalUntil_replace (fun s => ?_) before after s
    rw [evalUntil_singleton, ih]
  | any before after _ ih =>
    rw [eval_any, eval_any]
    refine evalUntil_replace (fun s => ?_) before after s
    rw [evalUntil_singleton, ih]

/-- **Rewriting is not observed.** However often and wherever the laws are applied to an
expression, in the one direction or the other, the evaluation stays what it was under all
bindings: its value, the computations that run and their order, and the world they leave. -/
theorem run_of_rewritings (h : Relation.EqvGen RewritesTo e e') (vars : Bindings σ) (world : σ) :
    e'.run vars world = e.run vars world := by
  induction h with
  | rel e e' h => exact eval_of_rewritesTo h _
  | refl e => rfl
  | symm e e' _ ih => exact ih.symm
  | trans e e' e'' _ _ ih ih' => exact ih'.trans ih

def notBoth : Expression :=
  .negation (.every [.var "fresh", .negation (.negation (.var "fresh")), .every []])

def eitherNot : Expression :=
  .any [.negation (.var "fresh"), .negation (.var "fresh")]

/-- The second time the computation would answer no, but it is asked once, however the
expression is written. -/
theorem run_of_rewritings_fresh : Relation.EqvGen RewritesTo notBoth eitherNot ∧
    eitherNot.run [("fresh", .deferred fun n => (n == 0, n + 1))] 0 =
      notBoth.run [("fresh", .deferred fun n => (n == 0, n + 1))] 0 := by
  have hempty : RewritesTo notBoth
      (.negation (.every [.var "fresh", .negation (.negation (.var "fresh"))])) :=
    .negation (.law (.everyEvery [.var "fresh", .negation (.negation (.var "fresh"))] [] []))
  have hinner : RewritesTo (.negation (.every [.var "fresh", .negation (.negation (.var "fresh"))]))
      (.negation (.every [.var "fresh", .var "fresh"])) :=
    .negation (.every [.var "fresh"] [] (.law (.negationNegation (.var "fresh"))))
  have houter : RewritesTo (.negation (.every [.var "fresh", .var "fresh"])) eitherNot :=
    .law (.negationEvery [.var "fresh", .var "fresh"])
  have h : Relation.EqvGen RewritesTo notBoth eitherNot :=
    .trans _ _ _ (.rel _ _ hempty) (.trans _ _ _ (.rel _ _ hinner) (.rel _ _ houter))
  exact ⟨h, run_of_rewritings h _ 0⟩

end BlockEdit.Expression
