/-
Evaluation as reading. An evaluation meets variables from left to right and
does not look behind an operand that decides (`Expression.met`), and it does
nothing but read the variables that it meets (`Expression.eval_eq`). So what
one reading keeps, a whole evaluation keeps (`Expression.eval_preserves`), and
bindings count only as far as they are read (`Expression.eval_congr`).

Conjunctions and disjunctions are alike but for the value that decides, so
both are taken as operands up to one that has the value `stop`.
-/
import BlockEdit.Expression.ByNeed
import Mathlib.Data.List.Induction

namespace BlockEdit

/-! ## Reading one variable -/

/-- The name stands for a computation. -/
def Bindings.isDeferred {σ : Type} (vars : Bindings σ) (name : String) : Bool :=
  match vars.get? name with
  | some (.deferred _) => true
  | _ => false

theorem Bindings.isDeferred_iff {σ : Type} {vars : Bindings σ} {name : String} :
    vars.isDeferred name = true ↔ ∃ compute, vars.get? name = some (.deferred compute) := by
  rw [isDeferred]
  split
  · next compute h => simp [h]
  · next h => simpa using h

namespace EvalState

variable {σ : Type} {vars : Bindings σ} {s : EvalState σ} {name key : String} {b : Bool}

/-- All that reading a variable can do: the value it gives and the state it leaves. -/
inductive Reads (vars : Bindings σ) (s : EvalState σ) (name : String) :
    Bool × EvalState σ → Prop where
  | known {b : Bool} (found : s.known.get? name = some b) : Reads vars s name (b, s)
  | fixed {b : Bool} (new : s.known.get? name = none) (bound : vars.get? name = some (.fixed b)) :
      Reads vars s name (b, s.remember name b)
  | unbound (new : s.known.get? name = none) (unbound : vars.get? name = none) :
      Reads vars s name (false, s.remember name false)
  | called {compute : σ → Bool × σ} (new : s.known.get? name = none)
      (bound : vars.get? name = some (.deferred compute)) :
      Reads vars s name (s.call name compute)

theorem reads_readVar (vars : Bindings σ) (s : EvalState σ) (name : String) :
    Reads vars s name (s.readVar vars name) := by
  rw [readVar]
  cases hknown : s.known.get? name with
  | some b => exact .known hknown
  | none =>
    cases hbound : vars.get? name with
    | none => exact .unbound hknown hbound
    | some binding =>
      cases binding with
      | fixed b => exact .fixed hknown hbound
      | deferred compute => exact .called hknown hbound

/-- What is known is the value that was read. -/
theorem get?_known_readVar_self (vars : Bindings σ) (s : EvalState σ) (name : String) :
    (s.readVar vars name).2.known.get? name = some (s.readVar vars name).1 := by
  generalize h : s.readVar vars name = read
  cases h ▸ reads_readVar vars s name with
  | known found => exact found
  | fixed | unbound | called => exact Entries.get?_put_self ..

/-- What is known of another variable stays. -/
theorem get?_known_readVar_of_ne (vars : Bindings σ) (s : EvalState σ) (h : key ≠ name) :
    (s.readVar vars name).2.known.get? key = s.known.get? key := by
  generalize hread : s.readVar vars name = read
  cases hread ▸ reads_readVar vars s name with
  | known found => rfl
  | fixed | unbound | called => exact Entries.get?_put_of_ne _ _ h

theorem get?_known_readVar_of_known (h : s.known.get? key = some b) :
    (s.readVar vars name).2.known.get? key = some b := by
  by_cases hkey : key = name
  · subst hkey
    simp only [readVar, h]
  · rw [get?_known_readVar_of_ne vars s hkey, h]

theorem calls_subset_readVar (vars : Bindings σ) (s : EvalState σ) (name : String) :
    s.calls ⊆ (s.readVar vars name).2.calls := by
  generalize h : s.readVar vars name = read
  cases h ▸ reads_readVar vars s name with
  | known | fixed | unbound => exact List.Subset.refl _
  | called => exact List.subset_append_left ..

/-! ## Reading one variable after the other -/

def readAll (vars : Bindings σ) (s : EvalState σ) (names : List String) : EvalState σ :=
  names.foldl (fun s name => (s.readVar vars name).2) s

theorem readAll_append (vars : Bindings σ) (s : EvalState σ) (names names' : List String) :
    s.readAll vars (names ++ names') = (s.readAll vars names).readAll vars names' :=
  List.foldl_append

theorem readAll_concat (vars : Bindings σ) (s : EvalState σ) (names : List String) (name : String) :
    s.readAll vars (names ++ [name]) = ((s.readAll vars names).readVar vars name).2 :=
  readAll_append ..

/-- After the readings, the variables read are known, and no others. -/
theorem known_readAll_start_iff (vars : Bindings σ) (world : σ) (names : List String)
    (key : String) :
    (∃ b, ((start world).readAll vars names).known.get? key = some b) ↔ key ∈ names := by
  -- from the end, since a reading goes by what the readings before it made known
  induction names using List.reverseRecOn with
  | nil => simp [readAll, start, Entries.get?]
  | append_singleton names name ih =>
    rw [readAll_concat, List.mem_append, List.mem_singleton, ← ih]
    by_cases hkey : key = name
    · subst hkey
      simp [get?_known_readVar_self]
    · simp [get?_known_readVar_of_ne _ _ hkey, hkey]

end EvalState

/-! ## Reading from left to right -/

namespace Expression

section
variable (v : String → Bool)

/-- The value of operands of which the first that has the value `stop` decides. -/
def holdsUntil (stop : Bool) : List Expression → Bool
  | [] => !stop
  | e :: es => if e.holds v = stop then stop else holdsUntil stop es

theorem holds_every_eq (es : List Expression) : (every es).holds v = holdsUntil v false es := by
  rw [holds]
  induction es with
  | nil => rfl
  | cons e es ih => cases h : e.holds v <;> simp [allHold, holdsUntil, h, ih]

theorem holds_any_eq (es : List Expression) : (any es).holds v = holdsUntil v true es := by
  rw [holds]
  induction es with
  | nil => rfl
  | cons e es ih => cases h : e.holds v <;> simp [someHolds, holdsUntil, h, ih]

mutual
/-- The variables that are met from left to right, as often as they are met. -/
def met : Expression → List String
  | const _ => []
  | var name => [name]
  | negation operand => operand.met
  | every operands => metUntil false operands
  | any operands => metUntil true operands

/-- The same for operands of which the first that has the value `stop` decides. -/
def metUntil : Bool → List Expression → List String
  | _, [] => []
  | stop, e :: es => e.met ++ if e.holds v = stop then [] else metUntil stop es
end
end

variable {σ : Type} (vars : Bindings σ)

/-- The evaluation of operands of which the first that has the value `stop` decides. -/
def evalUntil (stop : Bool) : List Expression → EvalState σ → Bool × EvalState σ
  | [], s => (!stop, s)
  | e :: es, s =>
    if (e.eval vars s).1 = stop then (stop, (e.eval vars s).2)
    else evalUntil stop es (e.eval vars s).2

theorem eval_every (es : List Expression) (s : EvalState σ) :
    (every es).eval vars s = evalUntil vars false es s := by
  rw [eval]
  induction es generalizing s with
  | nil => rfl
  | cons e es ih => cases h : (e.eval vars s).1 <;> simp [evalEvery, evalUntil, h, ih]

theorem eval_any (es : List Expression) (s : EvalState σ) :
    (any es).eval vars s = evalUntil vars true es s := by
  rw [eval]
  induction es generalizing s with
  | nil => rfl
  | cons e es ih => cases h : (e.eval vars s).1 <;> simp [evalAny, evalUntil, h, ih]

variable {vars} {vars' : Bindings σ} {v : String → Bool}

/-! ## What evaluation keeps -/

section
variable {P : EvalState σ → Prop}

theorem evalUntil_preserves {stop : Bool} {es : List Expression}
    (operand : ∀ e ∈ es, ∀ s, P s → P (e.eval vars s).2) (s : EvalState σ) (h : P s) :
    P (evalUntil vars stop es s).2 := by
  induction es generalizing s with
  | nil => exact h
  | cons e es ih =>
    obtain ⟨he, hes⟩ := List.forall_mem_cons.1 operand
    rw [evalUntil]
    split
    · exact he s h
    · exact ih hes _ (he s h)

/-- What one reading keeps, a whole evaluation keeps. -/
theorem eval_preserves (read : ∀ s name, P s → P (s.readVar vars name).2) (e : Expression)
    (s : EvalState σ) (h : P s) : P (e.eval vars s).2 := by
  induction e using induct generalizing s with
  | const b => exact h
  | var name => exact read s name h
  | negation operand ih => exact ih s h
  | every operands ih =>
    rw [eval_every]
    exact evalUntil_preserves ih s h
  | any operands ih =>
    rw [eval_any]
    exact evalUntil_preserves ih s h

end

theorem get?_known_evalUntil {stop : Bool} {es : List Expression} {s : EvalState σ} {name : String}
    {b : Bool} (h : s.known.get? name = some b) :
    (evalUntil vars stop es s).2.known.get? name = some b := by
  refine evalUntil_preserves (P := fun s => s.known.get? name = some b) (fun e _ => ?_) s h
  exact eval_preserves (fun _ _ h => EvalState.get?_known_readVar_of_known h) e

theorem calls_subset_evalUntil (stop : Bool) (es : List Expression) (s : EvalState σ) :
    s.calls ⊆ (evalUntil vars stop es s).2.calls := by
  refine evalUntil_preserves (P := fun s' => s.calls ⊆ s'.calls) (fun e _ => ?_) s
    (List.Subset.refl _)
  exact eval_preserves (fun s' name h => List.Subset.trans h (s'.calls_subset_readVar vars name)) e

/-! ## Evaluation as reading -/

/-- What is known has the value that the valuation gives it. -/
def Agrees (v : String → Bool) (known : Entries String Bool) : Prop :=
  ∀ name b, known.get? name = some b → v name = b

theorem evalUntil_eq {stop : Bool} {es : List Expression}
    (operand : ∀ e ∈ es, ∀ s, Agrees v (e.eval vars s).2.known →
      e.eval vars s = (e.holds v, s.readAll vars (e.met v)))
    (s : EvalState σ) (h : Agrees v (evalUntil vars stop es s).2.known) :
    evalUntil vars stop es s = (holdsUntil v stop es, s.readAll vars (metUntil v stop es)) := by
  induction es generalizing s with
  | nil => simp [evalUntil, holdsUntil, metUntil, EvalState.readAll]
  | cons e es ih =>
    obtain ⟨he, hes⟩ := List.forall_mem_cons.1 operand
    rw [evalUntil] at h ⊢
    rw [holdsUntil, metUntil]
    by_cases hstop : (e.eval vars s).1 = stop
    · rw [if_pos hstop] at h ⊢
      have hfirst := he s h
      rw [hfirst] at hstop ⊢
      rw [if_pos hstop, if_pos hstop, List.append_nil]
    · rw [if_neg hstop] at h ⊢
      -- the operands that follow forget nothing, so the first one was in agreement too
      have hfirst := he s fun name b hb => h name b (get?_known_evalUntil hb)
      rw [ih hes _ h]
      rw [hfirst] at hstop ⊢
      rw [if_neg hstop, if_neg hstop, EvalState.readAll_append]

/-- Where the valuation agrees with what is known in the end, the value is the meaning, and
the evaluation was a reading of the variables met. -/
theorem eval_eq (e : Expression) (s : EvalState σ) (h : Agrees v (e.eval vars s).2.known) :
    e.eval vars s = (e.holds v, s.readAll vars (e.met v)) := by
  induction e using induct generalizing s with
  | const b => simp [eval, holds, met, EvalState.readAll]
  | var name =>
    have hvalue := h name _ (EvalState.get?_known_readVar_self vars s name)
    rw [holds, met, hvalue]
    rfl
  | negation operand ih => rw [eval, ih s h, holds, met]
  | every operands ih =>
    rw [eval_every] at h ⊢
    rw [evalUntil_eq ih s h, holds_every_eq, met]
  | any operands ih =>
    rw [eval_any] at h ⊢
    rw [evalUntil_eq ih s h, holds_any_eq, met]

/-! ## Other bindings -/

/-- The bindings differ at computations that did not run, if at all. -/
def SameUpTo (vars vars' : Bindings σ) (calls : List String) : Prop :=
  ∀ name, vars'.get? name = vars.get? name ∨ vars.isDeferred name = true ∧ name ∉ calls

theorem SameUpTo.of_subset {calls calls' : List String} (h : SameUpTo vars vars' calls')
    (hsub : calls ⊆ calls') : SameUpTo vars vars' calls :=
  fun name => (h name).imp_right fun hname => ⟨hname.1, fun hmem => hname.2 (hsub hmem)⟩

theorem readVar_congr {s : EvalState σ} {name : String}
    (h : SameUpTo vars vars' (s.readVar vars name).2.calls) :
    s.readVar vars' name = s.readVar vars name := by
  rcases h name with hsame | ⟨hdeferred, hcalls⟩
  · simp only [EvalState.readVar, hsame]
  · obtain ⟨compute, hbound⟩ := Bindings.isDeferred_iff.1 hdeferred
    cases hknown : s.known.get? name with
    | some b => simp only [EvalState.readVar, hknown]
    | none =>
      -- a first reading runs the computation, and this one did not run
      simp [EvalState.readVar, hknown, hbound, EvalState.call] at hcalls

theorem evalUntil_congr {stop : Bool} {es : List Expression}
    (operand : ∀ e ∈ es, ∀ s, SameUpTo vars vars' (e.eval vars s).2.calls →
      e.eval vars' s = e.eval vars s)
    (s : EvalState σ) (h : SameUpTo vars vars' (evalUntil vars stop es s).2.calls) :
    evalUntil vars' stop es s = evalUntil vars stop es s := by
  induction es generalizing s with
  | nil => rfl
  | cons e es ih =>
    obtain ⟨he, hes⟩ := List.forall_mem_cons.1 operand
    simp only [evalUntil] at h ⊢
    by_cases hstop : (e.eval vars s).1 = stop
    · rw [if_pos hstop] at h
      rw [he s h, if_pos hstop, if_pos hstop]
    · rw [if_neg hstop] at h
      -- what did not run in the end did not run in the first operand
      rw [he s (h.of_subset (calls_subset_evalUntil ..)), if_neg hstop, if_neg hstop, ih hes _ h]

/-- Computations that did not run are of no account. -/
theorem eval_congr (e : Expression) (s : EvalState σ)
    (h : SameUpTo vars vars' (e.eval vars s).2.calls) : e.eval vars' s = e.eval vars s := by
  induction e using induct generalizing s with
  | const b => rfl
  | var name => exact readVar_congr h
  | negation operand ih => rw [eval, eval, ih s h]
  | every operands ih =>
    rw [eval_every] at h
    rw [eval_every, eval_every, evalUntil_congr ih s h]
  | any operands ih =>
    rw [eval_any] at h
    rw [eval_any, eval_any, evalUntil_congr ih s h]

end Expression

/-! ## Steady computations -/

/-- Each name has its value under the valuation, whenever a computation is asked. -/
structure Bindings.Steady {σ : Type} (vars : Bindings σ) (v : String → Bool) : Prop where
  fixed : ∀ name b, vars.get? name = some (.fixed b) → v name = b
  deferred : ∀ name compute, vars.get? name = some (.deferred compute) →
    ∀ world, (compute world).1 = v name
  unbound : ∀ name, vars.get? name = none → v name = false

namespace Bindings.Steady

variable {σ : Type} {vars : Bindings σ} {v : String → Bool}

theorem agrees_readVar (h : vars.Steady v) (s : EvalState σ) (name : String)
    (hs : Expression.Agrees v s.known) : Expression.Agrees v (s.readVar vars name).2.known := by
  intro key b hb
  by_cases hkey : key = name
  · subst hkey
    rw [EvalState.get?_known_readVar_self] at hb
    obtain rfl := Option.some.inj hb
    generalize hread : s.readVar vars key = read
    cases hread ▸ EvalState.reads_readVar vars s key with
    | known found => exact hs key _ found
    | fixed new bound => exact h.fixed key _ bound
    | unbound new unbound => exact h.unbound key unbound
    | called new bound => exact (h.deferred key _ bound s.world).symm
  · rw [EvalState.get?_known_readVar_of_ne vars s hkey] at hb
    exact hs key b hb

/-- When the computations run is then of no account for the value. -/
theorem run_eq (h : vars.Steady v) (e : Expression) (world : σ) : e.run vars world =
    (e.holds v, (EvalState.start world).readAll vars (e.met v)) := by
  refine Expression.eval_eq e _ (Expression.eval_preserves h.agrees_readVar e _ ?_)
  intro name b hb
  simp [EvalState.start, Entries.get?] at hb

end Bindings.Steady

/-- Where one computation alone changes the world, the readings do what it does, once, if they
come to it. -/
theorem EvalState.world_readAll_start {σ : Type} {vars : Bindings σ} {name : String}
    {compute : σ → Bool × σ} (bound : vars.get? name = some (.deferred compute))
    (others : ∀ key compute', key ≠ name → vars.get? key = some (.deferred compute') →
      ∀ world, (compute' world).2 = world) (world : σ) (names : List String) :
    ((start world).readAll vars names).world =
      if name ∈ names then (compute world).2 else world := by
  induction names using List.reverseRecOn with
  | nil => rfl
  | append_singleton names key ih =>
    have hknown := known_readAll_start_iff vars world names key
    simp only [readAll_concat, List.mem_append, List.mem_singleton]
    generalize (start world).readAll vars names = s at ih hknown
    by_cases hkey : name = key
    · subst hkey
      rw [if_pos (.inr rfl)]
      generalize hread : s.readVar vars name = read
      cases hread ▸ reads_readVar vars s name with
      | known found => rw [ih, if_pos (hknown.1 ⟨_, found⟩)]
      | fixed new bound' => rw [bound] at bound'; cases bound'
      | unbound new unbound => rw [bound] at unbound; cases unbound
      | called new bound' =>
        rw [bound] at bound'
        cases bound'
        have hnew : name ∉ names := by
          rw [← hknown, new]
          simp
        rw [call, ih, if_neg hnew]
    · simp only [hkey, or_false]
      rw [← ih]
      generalize hread : s.readVar vars key = read
      cases hread ▸ reads_readVar vars s key with
      | known | fixed | unbound => rfl
      | called new bound' => exact others key _ (Ne.symm hkey) bound' s.world

end BlockEdit
