/-
Questions about places during a drag, and what they cost. Signals are deferred
and kept, but a place presents itself as if all of them were known beforehand
(`Tree.signalValue`). What by-need evaluation makes a difference to is the
ledger: a drop is tried out in just those questions whose expression comes to
the dear signal, once in each, and the trial inspects one tree after the other
until one is valid.

`Tree.appearance_eq` says all of this of one question, whatever the ledger
holds already, and `Tree.ask_eq` of any row of questions that go on with one
ledger.
-/
import BlockEdit.Drop.Appearance
import BlockEdit.Proofs.Expression.Reading

namespace BlockEdit

/-- The records up to the first yes, that of the yes included. -/
theorem Logged.any_events {α : Type} (f : α → Logged Bool) (as : List α) : (any f as).events =
    (as.take (as.findIdx (fun a => (f a).value) + 1)).flatMap fun a => (f a).events := by
  induction as with
  | nil => rfl
  | cons a as ih =>
    rw [any, List.findIdx_cons, List.take_succ_cons, List.flatMap_cons]
    cases (f a).value with
    | true => simp
    | false => simp [ih]

theorem Entries.get?_map_name {κ α β : Type} [DecidableEq κ] (name : α → κ) (f : α → β)
    (as : List α) (k : κ) :
    get? (as.map fun a => (name a, f a)) k = (as.find? (name · = k)).map f := by
  induction as with
  | nil => rfl
  | cons a as ih =>
    rw [List.map_cons, get?, List.find?_cons]
    by_cases h : name a = k
    · simp [h]
    · simp [h, ih]

namespace Tree

variable (t : Tree) (g : Grammar) (l : Location) (cargo : Cargo)

/-! ## The signals -/

/-- What the variables stand for in a drag, name by name. -/
def signalValue : String → Bool
  | "ifAnyDrag" => true
  | "ifEmpty" => t.slotIsEmpty l
  | "ifLegalDrag" => t.slotTakes g l cargo
  | "ifLegalChild" => t.insertLeavesValid g l cargo
  | "ifChildrenRequired" => t.slotIsShort g l
  | _ => false

/-- A signal says what its variable stands for. -/
theorem signalValue_name (s : Signal) :
    t.signalValue g l cargo s.name = s.holds t g l cargo true := by
  cases s <;> rfl

theorem signalValue_of_find? {name : String} {s : Signal}
    (h : Signal.all.find? (·.name = name) = some s) :
    t.signalValue g l cargo name = s.holds t g l cargo true := by
  have hname := List.find?_some h
  obtain rfl : s.name = name := of_decide_eq_true hname
  exact t.signalValue_name g l cargo s

theorem signalValue_of_find?_eq_none {name : String}
    (h : Signal.all.find? (·.name = name) = none) : t.signalValue g l cargo name = false := by
  have hne : ∀ s : Signal, s.name ≠ name := by
    intro s hs
    have hfalse := List.find?_eq_none.1 h s (by cases s <;> decide)
    exact hfalse (decide_eq_true hs)
  unfold signalValue
  split
  · exact absurd rfl (hne .dragging)
  · exact absurd rfl (hne .empty)
  · exact absurd rfl (hne .welcome)
  · exact absurd rfl (hne .valid)
  · exact absurd rfl (hne .short)
  · rfl

theorem get?_signalBindings (name : String) : (t.signalBindings g l cargo true).get? name =
    (Signal.all.find? (·.name = name)).map (t.bindingOf g l cargo true) :=
  Entries.get?_map_name Signal.name _ Signal.all name

variable {t g l cargo}

theorem bindingOf_eq_fixed_iff {s : Signal} {b : Bool} :
    t.bindingOf g l cargo true s = .fixed b ↔ s = .dragging ∧ b = true := by
  cases s <;> simp [bindingOf, eq_comm]

/-- A deferred signal answers what it says, and `valid` alone enters something in the ledger. -/
theorem of_bindingOf_eq_deferred {s : Signal} {compute : Ledger → Bool × Ledger}
    (h : t.bindingOf g l cargo true s = .deferred compute) (ledger : Ledger) :
    (compute ledger).1 = s.holds t g l cargo true ∧
      (s ≠ .valid → (compute ledger).2 = ledger) := by
  cases s <;> simp only [bindingOf, Binding.deferred.injEq, reduceCtorEq] at h <;> subst h
  case valid => exact ⟨tryInsert_value .., fun hne => absurd rfl hne⟩
  all_goals exact ⟨rfl, fun _ => rfl⟩

variable (t g l cargo)

/-- Each signal says the same whenever it is asked. -/
theorem steady_signalBindings :
    (t.signalBindings g l cargo true).Steady (t.signalValue g l cargo) := by
  constructor
  · intro name b hb
    rw [get?_signalBindings, Option.map_eq_some_iff] at hb
    obtain ⟨s, hs, hb⟩ := hb
    obtain ⟨rfl, rfl⟩ := bindingOf_eq_fixed_iff.1 hb
    exact signalValue_of_find? t g l cargo hs
  · intro name compute hcompute ledger
    rw [get?_signalBindings, Option.map_eq_some_iff] at hcompute
    obtain ⟨s, hs, hcompute⟩ := hcompute
    rw [(of_bindingOf_eq_deferred hcompute ledger).1, signalValue_of_find? t g l cargo hs]
  · intro name hnone
    rw [get?_signalBindings, Option.map_eq_none_iff] at hnone
    exact signalValue_of_find?_eq_none t g l cargo hnone

/-! ## Trials -/

/-- The record of the tree that an edit made, if it made one. -/
def inspectionOf : Except EditError Tree → List Event
  | .ok t => [.inspectedTree (t.faults g).length]
  | .error _ => []

/-- The records of a trial: its own, and one of each tree that comes of a form of the cargo, up
to the first valid one. -/
def trialRecords : List Event :=
  .triedDrop l cargo.length ::
    (cargo.take (cargo.findIdx (fun d => leavesValid g (t.insert l d)) + 1)).flatMap
      fun d => inspectionOf g (t.insert l d)

theorem tryEdit_events (edited : Except EditError Tree) :
    (tryEdit g edited).events = inspectionOf g edited := by
  cases edited <;> rfl

theorem tryInsert_events : (t.tryInsert g l cargo).events = t.trialRecords g l cargo := by
  simp only [tryInsert, trialRecords, Logged.any_events, tryEdit_value, tryEdit_events]

/-- The value of an expression over the signals, and what is in the ledger then. -/
theorem run_signalBindings (e : Expression) (ledger : Ledger) :
    (e.run (t.signalBindings g l cargo true) ledger).1 = e.holds (t.signalValue g l cargo) ∧
    (e.run (t.signalBindings g l cargo true) ledger).2.world =
      if Signal.valid.name ∈ e.met (t.signalValue g l cargo) then
        ledger.addTrial (t.trialRecords g l cargo)
      else ledger := by
  rw [(steady_signalBindings t g l cargo).run_eq e ledger]
  refine ⟨rfl, ?_⟩
  have hvalid : (t.signalBindings g l cargo true).get? Signal.valid.name =
      some (t.bindingOf g l cargo true .valid) := get?_signalBindings t g l cargo _
  rw [← tryInsert_events]
  refine EvalState.world_readAll_start hvalid ?_ ledger _
  -- a deferred signal of another name is another signal
  intro name compute hne hcompute ledger
  rw [get?_signalBindings, Option.map_eq_some_iff] at hcompute
  obtain ⟨s, hs, hcompute⟩ := hcompute
  refine (of_bindingOf_eq_deferred hcompute ledger).2 ?_
  rintro rfl
  have hname := List.find?_some hs
  exact hne (of_decide_eq_true hname).symm

end Tree

/-! ## Questions -/

/-- How does this place present itself? -/
structure Question where
  location : Location
  drag : Drag
  visibility : Option Expression

namespace Question

variable (t : Tree) (g : Grammar) (q : Question)

def expression : Expression := q.visibility.getD usualVisibility

/-- The cargo that the expression is evaluated for: none without a drag, and none at the place
under the pointer. -/
def judged? : Option Cargo :=
  if q.drag.pointer = some q.location then none else q.drag.cargo

/-- The answer, all signals known beforehand. -/
def answer : Appearance :=
  match q.drag.cargo with
  | none => .idle
  | some cargo =>
    if q.drag.pointer = some q.location then .pointedAt
    else if q.expression.holds (t.signalValue g q.location cargo) then .inviting
    else .refusing

/-- The evaluation comes to the dear signal. -/
def tries : Bool :=
  q.judged?.any fun cargo =>
    Signal.valid.name ∈ q.expression.met (t.signalValue g q.location cargo)

/-- The records that the question makes. -/
def records : List Event :=
  match q.judged? with
  | none => []
  | some cargo =>
    (if q.tries t g then t.trialRecords g q.location cargo else []) ++
      [.judgedTarget q.location (q.expression.holds (t.signalValue g q.location cargo))]

end Question

namespace Tree

variable (t : Tree) (g : Grammar)

/-- Answers one question after the other, all on one ledger. -/
def ask : List Question → Ledger → List Appearance × Ledger
  | [], ledger => ([], ledger)
  | q :: qs, ledger =>
    let (a, ledger) := t.appearance g q.location q.drag q.visibility ledger
    let (as, ledger) := ask qs ledger
    (a :: as, ledger)

section
variable {t g} {q : Question} {cargo : Cargo}

theorem appearance_of_judged? (h : q.judged? = some cargo) (ledger : Ledger) :
    t.appearance g q.location q.drag q.visibility ledger =
      let done := q.expression.run (t.signalBindings g q.location cargo true) ledger
      (if done.1 then .inviting else .refusing,
        done.2.world.record [.judgedTarget q.location done.1]) := by
  rw [Question.judged?, Option.ite_none_left_eq_some] at h
  rw [appearance, h.2]
  exact if_neg h.1

theorem answer_of_judged? (h : q.judged? = some cargo) : q.answer t g =
    if q.expression.holds (t.signalValue g q.location cargo) then .inviting else .refusing := by
  rw [Question.judged?, Option.ite_none_left_eq_some] at h
  rw [Question.answer, h.2]
  exact if_neg h.1

theorem appearance_of_judged?_eq_none (h : q.judged? = none) (ledger : Ledger) :
    t.appearance g q.location q.drag q.visibility ledger = (q.answer t g, ledger) := by
  rw [appearance, Question.answer]
  cases hcargo : q.drag.cargo with
  | none => rfl
  | some cargo =>
    rw [Question.judged?, hcargo, ite_eq_left_iff] at h
    have hpointer : q.drag.pointer = some q.location := Classical.byContradiction (by simpa using h)
    simp [hpointer]

end

/-- One question, whatever the ledger holds. -/
theorem appearance_eq (q : Question) (ledger : Ledger) :
    t.appearance g q.location q.drag q.visibility ledger =
      (q.answer t g, ⟨ledger.trials + (if q.tries t g then 1 else 0),
        ledger.events ++ q.records t g⟩) := by
  cases h : q.judged? with
  | none =>
    rw [appearance_of_judged?_eq_none h, Question.tries, Question.records, h]
    simp
  | some cargo =>
    obtain ⟨hvalue, hworld⟩ := run_signalBindings t g q.location cargo q.expression ledger
    rw [appearance_of_judged? h]
    dsimp only
    rw [hvalue, hworld, answer_of_judged? h, Question.records, Question.tries, h, Option.any_some]
    by_cases hmet : Signal.valid.name ∈ q.expression.met (t.signalValue g q.location cargo)
    · simp [hmet, Ledger.record, Ledger.addTrial]
    · simp [hmet, Ledger.record]

/-- **Answers to questions, and their cost.** Any row of questions that are put one after the
other is answered as if all signals were known beforehand. Drops are tried out once in each
question whose expression comes to the dear signal, and in no other. The records of a trial
are in its own question, ahead of that of the answer. -/
theorem ask_eq (qs : List Question) (ledger : Ledger) : t.ask g qs ledger =
    (qs.map (·.answer t g), ⟨ledger.trials + qs.countP (·.tries t g),
      ledger.events ++ qs.flatMap (·.records t g)⟩) := by
  induction qs generalizing ledger with
  | nil => simp [ask]
  | cons q qs ih =>
    rw [ask, appearance_eq]
    dsimp only
    rw [ih, List.map_cons, List.countP_cons, List.flatMap_cons, List.append_assoc,
      Nat.add_right_comm, Nat.add_assoc]

end Tree
end BlockEdit
