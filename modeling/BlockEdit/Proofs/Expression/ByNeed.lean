/-
Evaluation by need and the plain meaning of an expression. A computation may
answer differently each time it runs, and may change what others answer. So
the meaning is taken under the answers that it gave: `Expression.valuation`
has them, the fixed values, and anything at all for computations that did not
run.

Under each of these valuations the value of the evaluation is the meaning of
the expression, and the computations that ran are those of the variables met,
each once, in the order in which they were first met. They alone made the
world that is left. Those that did not run could as well be others
(`Expression.run_by_need`).
-/
import BlockEdit.Proofs.Expression.Reading

namespace BlockEdit

/-! ## Running computations -/

namespace Bindings

variable {σ : Type} {vars : Bindings σ} {name : String} {answers : Entries String Bool}
  {other : String → Bool}

/-- Runs the computations of some variables one after the other: their answers, and the
world that they leave. -/
def runAll (vars : Bindings σ) (names : List String) (world : σ) : Entries String Bool × σ :=
  names.foldl (fun done name =>
    match vars.get? name with
    | some (.deferred compute) => (Entries.put done.1 name (compute done.2).1, (compute done.2).2)
    | _ => done) ([], world)

/-- What a name stands for under the answers of computations. One that gave no answer is
given that of `other`. -/
def valueOf (vars : Bindings σ) (answers : Entries String Bool) (other : String → Bool)
    (name : String) : Bool :=
  match vars.get? name with
  | some (.fixed b) => b
  | some (.deferred _) => (answers.get? name).getD (other name)
  | none => false

theorem runAll_concat {compute : σ → Bool × σ} (h : vars.get? name = some (.deferred compute))
    (names : List String) (world : σ) : vars.runAll (names ++ [name]) world =
      ((vars.runAll names world).1.put name (compute (vars.runAll names world).2).1,
        (compute (vars.runAll names world).2).2) := by
  simp [runAll, h]

theorem valueOf_of_answer (h : vars.isDeferred name = true) {b : Bool}
    (hanswer : answers.get? name = some b) : vars.valueOf answers other name = b := by
  obtain ⟨compute, hbound⟩ := isDeferred_iff.1 h
  simp only [valueOf, hbound, hanswer, Option.getD_some]

/-- The answer of one computation leaves the values of all other names. -/
theorem valueOf_put_of_ne {key : String} (h : key ≠ name) (b : Bool) :
    vars.valueOf (answers.put name b) other key = vars.valueOf answers other key := by
  rw [valueOf, valueOf, Entries.get?_put_of_ne _ _ h]

end Bindings

/-! ## What is true all along -/

namespace EvalState

variable {σ : Type} {vars : Bindings σ} {world : σ} {s : EvalState σ} {name : String}

/-- Each computation has run at most once, just the variables met have been computed, and
what is known and the world are as these computations made them. -/
structure Faithful (vars : Bindings σ) (world : σ) (s : EvalState σ) : Prop where
  once : s.calls.Nodup
  called : ∀ name, name ∈ s.calls ↔
    (∃ b, s.known.get? name = some b) ∧ vars.isDeferred name = true
  answered : (vars.runAll s.calls world).1.keys = s.calls
  world_eq : (vars.runAll s.calls world).2 = s.world
  known : ∀ name b, s.known.get? name = some b → ∀ other,
    vars.valueOf (vars.runAll s.calls world).1 other name = b

namespace Faithful

theorem start (vars : Bindings σ) (world : σ) : Faithful vars world (start world) where
  once := List.nodup_nil
  called name := by simp [EvalState.start, Entries.get?]
  answered := rfl
  world_eq := rfl
  known name b h := by simp [EvalState.start, Entries.get?] at h

/-- A variable that needs no computation becomes known. -/
theorem remember (h : Faithful vars world s) (hname : vars.isDeferred name = false) {b : Bool}
    (hvalue : ∀ answers other, vars.valueOf answers other name = b) :
    Faithful vars world (s.remember name b) where
  once := h.once
  called key := by
    rw [EvalState.remember]
    by_cases hkey : key = name
    · subst hkey
      simp [h.called, hname]
    · simpa [Entries.get?_put_of_ne _ _ hkey] using h.called key
  answered := h.answered
  world_eq := h.world_eq
  known key b' hb' other := by
    rw [EvalState.remember] at hb' ⊢
    by_cases hkey : key = name
    · subst hkey
      rw [Entries.get?_put_self] at hb'
      rw [hvalue, Option.some.inj hb']
    · rw [Entries.get?_put_of_ne _ _ hkey] at hb'
      exact h.known key b' hb' other

/-- A variable that needs a computation becomes known, and the computation has run. -/
theorem call {compute : σ → Bool × σ} (h : Faithful vars world s)
    (new : s.known.get? name = none) (bound : vars.get? name = some (.deferred compute)) :
    Faithful vars world (s.call name compute).2 := by
  have hname : vars.isDeferred name = true := Bindings.isDeferred_iff.2 ⟨compute, bound⟩
  -- what has run is known, so this one has not run yet
  have hnew : name ∉ s.calls := by
    rw [h.called, new]
    simp
  have hrun := Bindings.runAll_concat bound s.calls world
  rw [h.world_eq] at hrun
  constructor
  · exact List.nodup_append.2 ⟨h.once, List.pairwise_singleton ..,
      fun a ha b hb e => hnew (List.mem_singleton.1 hb ▸ e ▸ ha)⟩
  · intro key
    show key ∈ s.calls ++ [name] ↔ (∃ b, (s.known.put name _).get? key = some b) ∧ _
    rw [List.mem_append, List.mem_singleton]
    by_cases hkey : key = name
    · subst hkey
      simp [Entries.get?_put_self, hname]
    · simp [Entries.get?_put_of_ne _ _ hkey, hkey, h.called]
  · show (vars.runAll (s.calls ++ [name]) world).1.keys = s.calls ++ [name]
    rw [hrun, Entries.keys_put, h.answered, if_neg hnew]
  · show (vars.runAll (s.calls ++ [name]) world).2 = (compute s.world).2
    rw [hrun]
  · intro key b hb other
    show vars.valueOf (vars.runAll (s.calls ++ [name]) world).1 other key = b
    rw [hrun]
    change (s.known.put name _).get? key = some b at hb
    by_cases hkey : key = name
    · subst hkey
      rw [Entries.get?_put_self] at hb
      rw [Bindings.valueOf_of_answer hname (Entries.get?_put_self ..), Option.some.inj hb]
    · rw [Entries.get?_put_of_ne _ _ hkey] at hb
      rw [Bindings.valueOf_put_of_ne hkey]
      exact h.known key b hb other

theorem readVar (h : Faithful vars world s) (name : String) :
    Faithful vars world (s.readVar vars name).2 := by
  generalize hread : s.readVar vars name = read
  cases hread ▸ reads_readVar vars s name with
  | known found => exact h
  | fixed new bound =>
    exact h.remember (by simp [Bindings.isDeferred, bound]) fun _ _ => by
      simp [Bindings.valueOf, bound]
  | unbound new unbound =>
    exact h.remember (by simp [Bindings.isDeferred, unbound]) fun _ _ => by
      simp [Bindings.valueOf, unbound]
  | called new bound => exact h.call new bound

end Faithful

/-! ## What has run -/

theorem eraseDups_concat (names : List String) (name : String) : (names ++ [name]).eraseDups =
    if name ∈ names then names.eraseDups else names.eraseDups ++ [name] := by
  rw [List.eraseDups_append]
  by_cases h : name ∈ names
  · simp [List.removeAll, h]
  · simp [List.removeAll, h, List.eraseDups_cons]

/-- The computations that run are those of the variables read, where they are read first. -/
theorem calls_readAll_start (vars : Bindings σ) (world : σ) (names : List String) :
    ((start world).readAll vars names).calls = (names.filter vars.isDeferred).eraseDups := by
  induction names using List.reverseRecOn with
  | nil => rfl
  | append_singleton names name ih =>
    have hknown := known_readAll_start_iff vars world names name
    rw [readAll_concat, List.filter_append]
    generalize (start world).readAll vars names = s at ih hknown
    generalize hread : s.readVar vars name = read
    cases hread ▸ reads_readVar vars s name with
    | known found =>
      -- nothing runs, and the name is in the list already
      have hmem := hknown.1 ⟨_, found⟩
      cases hname : vars.isDeferred name <;> simp [hname, eraseDups_concat, hmem, ih]
    | fixed new bound => simpa [Bindings.isDeferred, bound, remember] using ih
    | unbound new unbound => simpa [Bindings.isDeferred, unbound, remember] using ih
    | called new bound =>
      have hnew : name ∉ names := by
        rw [← hknown, new]
        simp
      have hname : vars.isDeferred name = true := Bindings.isDeferred_iff.2 ⟨_, bound⟩
      simp [hname, eraseDups_concat, hnew, ih, call]

end EvalState

/-! ## The meaning of what was evaluated -/

namespace Expression

variable {σ : Type} (e : Expression) (vars : Bindings σ) (world : σ)

/-- The computations that run in the evaluation, in order. -/
def calls : List String := (e.run vars world).2.calls

/-- The answers that they give. -/
def answers : Entries String Bool := (vars.runAll (e.calls vars world) world).1

/-- The value of each name as the evaluation found it; `other` gives those that were not
computed. -/
def valuation (other : String → Bool) : String → Bool :=
  vars.valueOf (e.answers vars world) other

theorem faithful_run : EvalState.Faithful vars world (e.run vars world).2 :=
  eval_preserves (fun _ name h => h.readVar name) e _ (.start vars world)

theorem run_eq (other : String → Bool) : e.run vars world =
    (e.holds (e.valuation vars world other),
      (EvalState.start world).readAll vars (e.met (e.valuation vars world other))) :=
  eval_eq e _ fun name b hb => (e.faithful_run vars world).known name b hb other

/-- **Evaluation by need.** No computation runs twice; those that run have an answer each,
and leave the world as running them one after the other does. Whatever the others might
answer, the value is the meaning of the expression, and what ran are the computations of
the variables met from left to right, in the order in which they were first met. With
other bindings for computations that did not run, the evaluation is the same. -/
theorem run_by_need :
    (e.calls vars world).Nodup ∧
    (e.answers vars world).keys = e.calls vars world ∧
    (vars.runAll (e.calls vars world) world).2 = (e.run vars world).2.world ∧
    (∀ other, (e.run vars world).1 = e.holds (e.valuation vars world other) ∧
      e.calls vars world =
        ((e.met (e.valuation vars world other)).filter vars.isDeferred).eraseDups) ∧
    ∀ vars' : Bindings σ, (∀ name, vars'.get? name = vars.get? name ∨
        vars.isDeferred name = true ∧ name ∉ e.calls vars world) →
      e.run vars' world = e.run vars world := by
  have h := e.faithful_run vars world
  refine ⟨h.once, h.answered, h.world_eq, fun other => ⟨?_, ?_⟩, fun vars' hvars' => ?_⟩
  · rw [e.run_eq vars world other]
  · rw [← EvalState.calls_readAll_start vars world, calls, e.run_eq vars world other]
  · exact eval_congr e _ hvars'

/-- Asked again, this computation would answer no. -/
example : ((every [.var "fresh", .any [.var "old", .var "fresh"]]).run
    [("fresh", .deferred fun n => (n == 0, n + 1)), ("old", .fixed false)] 0).1 = true := by decide

end Expression
end BlockEdit
