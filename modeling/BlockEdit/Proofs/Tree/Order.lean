/-
Edits of trees that are the same but for the order of properties and groups.
A location leads to nodes that are alike, or in both trees nowhere, and so
an edit fails in both trees with the same error or makes trees that are the
same again (`Edit.run_agree`).
-/
import BlockEdit.Drop.Placement
import BlockEdit.Proofs.Node.Order
import BlockEdit.Proofs.Tree.Edits

namespace BlockEdit

/-- Both fail, and with the same error, or both have results, and these are related. -/
inductive Agree {ε α β : Type} (r : α → β → Prop) : Except ε α → Except ε β → Prop where
  | ok {a : α} {b : β} (related : r a b) : Agree r (.ok a) (.ok b)
  | error (e : ε) : Agree r (.error e) (.error e)

namespace Agree

variable {ε α β α' β' : Type} {r : α → β → Prop} {r' : α' → β' → Prop} {x : Except ε α}
  {y : Except ε β}

theorem exists_cases (h : Agree r x y) :
    (∃ a b, x = .ok a ∧ y = .ok b ∧ r a b) ∨ ∃ e, x = .error e ∧ y = .error e := by
  cases h with
  | ok related => exact .inl ⟨_, _, rfl, rfl, related⟩
  | error e => exact .inr ⟨e, rfl, rfl⟩

theorem bind {f : α → Except ε α'} {g : β → Except ε β'} (h : Agree r x y)
    (hf : ∀ a b, r a b → Agree r' (f a) (g b)) : Agree r' (x >>= f) (y >>= g) := by
  cases h with
  | ok related => exact hf _ _ related
  | error e => exact .error e

theorem map {f : α → α'} {g : β → β'} (h : Agree r x y) (hf : ∀ a b, r a b → r' (f a) (g b)) :
    Agree r' (x.map f) (y.map g) := by
  cases h with
  | ok related => exact .ok (hf _ _ related)
  | error e => exact .error e

theorem eq {y : Except ε α} (h : Agree Eq x y) : x = y := by
  cases h with
  | ok related => rw [related]
  | error e => rfl

end Agree

/-- A change that is made in both nodes, or possible in neither. -/
theorem orFail_agree {e : EditError} {m? n? : Option Node}
    (h : m?.map Node.sorted = n?.map Node.sorted) :
    Agree Node.Same (orFail e m?) (orFail e n?) := by
  rcases Node.map_sorted_eq_iff.1 h with ⟨rfl, rfl⟩ | ⟨m, n, rfl, rfl, hsame⟩
  · exact .error e
  · exact .ok hsame

namespace Tree

variable {s t : Tree} {target reported : Location}

/-! ## Nodes at a location -/

namespace Same

variable (h : s.Same t)
include h

theorem root_cases : (s.root = none ∧ t.root = none) ∨
    ∃ m n, s.root = some m ∧ t.root = some n ∧ m.Alike n := by
  rcases Node.map_sorted_eq_iff.1 h with hnone | ⟨m, n, hm, hn, hsame⟩
  · exact .inl hnone
  · exact .inr ⟨m, n, hm, hn, s.wellFormed m hm, t.wellFormed n hn, hsame⟩

theorem isEmpty : s.isEmpty = t.isEmpty := by
  rcases h.root_cases with ⟨hs, ht⟩ | ⟨m, n, hs, ht, -⟩
  · rw [Tree.isEmpty, Tree.isEmpty, hs, ht]
  · rw [Tree.isEmpty, Tree.isEmpty, hs, ht]
    rfl

theorem nodeAt?_cases (l : Location) : (s.nodeAt? l = none ∧ t.nodeAt? l = none) ∨
    ∃ m n, s.nodeAt? l = some m ∧ t.nodeAt? l = some n ∧ m.Alike n := by
  rw [nodeAt?, nodeAt?]
  rcases h.root_cases with ⟨hs, ht⟩ | ⟨m, n, hs, ht, halike⟩
  · rw [hs, ht]
    exact .inl ⟨rfl, rfl⟩
  · rw [hs, ht]
    exact halike.at?_cases l.steps

theorem nodeAt (l : Location) : Agree Node.Alike (s.nodeAt l) (t.nodeAt l) := by
  rw [Tree.nodeAt, Tree.nodeAt]
  rcases h.nodeAt?_cases l with ⟨hs, ht⟩ | ⟨m, n, hs, ht, halike⟩
  · rw [hs, ht]
    exact .error _
  · rw [hs, ht]
    exact .ok halike

theorem putAt (l : Location) {m n : Node} (hm : m.WellFormed) (hn : n.WellFormed)
    (hsame : m.Same n) : (s.putAt l m hm).Same (t.putAt l n hn) := by
  change (s.root.map (·.putAt l.steps m)).map Node.sorted =
    (t.root.map (·.putAt l.steps n)).map Node.sorted
  rcases h.root_cases with ⟨hs, ht⟩ | ⟨m, n, hs, ht, halike⟩
  · rw [hs, ht]
    rfl
  · rw [hs, ht]
    exact congrArg some (halike.putAt l.steps hsame)

/-! ## Edits -/

/-- If changes of nodes that are alike agree, so do these changes in the trees. -/
theorem modifyAt {change change' : Node → Except EditError Node}
    {keeps : ∀ ⦃n m : Node⦄, n.WellFormed → change n = .ok m → m.WellFormed}
    {keeps' : ∀ ⦃n m : Node⦄, n.WellFormed → change' n = .ok m → m.WellFormed}
    (hchange : ∀ m n, m.Alike n → Agree Node.Same (change m) (change' n)) :
    Agree Same (s.modifyAt target reported change keeps)
      (t.modifyAt target reported change' keeps') := by
  rcases h.nodeAt?_cases target with ⟨hs, ht⟩ | ⟨m, n, hs, ht, halike⟩
  · rw [modifyAt_eq_error_iff.2 (.inl ⟨hs, rfl⟩), modifyAt_eq_error_iff.2 (.inl ⟨ht, rfl⟩)]
    exact .error _
  · rcases (hchange m n halike).exists_cases with ⟨m', n', hm, hn, hsame⟩ | ⟨e, hm, hn⟩
    · have hm' : m'.WellFormed := keeps halike.left hm
      have hn' : n'.WellFormed := keeps' halike.right hn
      have hs' : s.modifyAt target reported change keeps = .ok (s.putAt target m' hm') :=
        modifyAt_eq_ok_iff.2 ⟨m, m', hs, hm, rfl⟩
      have ht' : t.modifyAt target reported change' keeps' = .ok (t.putAt target n' hn') :=
        modifyAt_eq_ok_iff.2 ⟨n, n', ht, hn, rfl⟩
      rw [hs', ht']
      exact .ok (h.putAt target hm' hn' hsame)
    · rw [modifyAt_eq_error_iff.2 (.inr ⟨m, hs, hm⟩), modifyAt_eq_error_iff.2 (.inr ⟨n, ht, hn⟩)]
      exact .error e

/-- The nodes inserted need only be the same, like the trees. -/
theorem insert (l : Location) {d d' : Description} (hd : d.toNode.Same d'.toNode) :
    Agree Same (s.insert l d) (t.insert l d') := by
  rw [Tree.insert, Tree.insert]
  cases l.parentAndStep? with
  | none =>
    dsimp only
    rw [h.isEmpty]
    split
    · exact .ok (congrArg some hd)
    · exact .error _
  | some place =>
    obtain ⟨parent, step⟩ := place
    exact h.modifyAt fun m n halike => orFail_agree (halike.insertChild? step hd)

theorem delete (l : Location) : Agree Same (s.delete l) (t.delete l) := by
  rw [Tree.delete, Tree.delete]
  cases l.parentAndStep? with
  | none => exact (h.nodeAt l).map fun _ _ _ => rfl
  | some place =>
    obtain ⟨parent, step⟩ := place
    exact h.modifyAt fun m n halike => orFail_agree (halike.removeChild? step)

theorem move (source target : Location) :
    Agree Same (s.move source target) (t.move source target) := by
  rw [Tree.move, Tree.move]
  refine (h.nodeAt source).bind fun m n halike => ?_
  split
  · exact .ok h
  · split
    · exact .error _
    · next adjusted _ =>
      have hd : m.describe.toNode.Same n.describe.toNode := by
        rw [Node.toNode_describe, Node.toNode_describe, halike.same]
        rfl
      exact (h.delete source).bind fun s₁ t₁ h₁ => h₁.insert adjusted hd

theorem replace (l : Location) (d : Description) :
    Agree Same (s.replace l d) (t.replace l d) := by
  rw [Tree.replace, Tree.replace]
  exact h.modifyAt fun m n halike => .ok rfl

theorem putProperty (l : Location) (key value : String) :
    Agree Same (s.putProperty l key value) (t.putProperty l key value) := by
  rw [Tree.putProperty, Tree.putProperty]
  exact h.modifyAt fun m n halike => .ok (halike.putProperty key value)

theorem rekeyProperty (l : Location) (old new : String) :
    Agree Same (s.rekeyProperty l old new) (t.rekeyProperty l old new) := by
  rw [Tree.rekeyProperty, Tree.rekeyProperty]
  exact h.modifyAt fun m n halike => orFail_agree (halike.rekeyProperty? old new)

theorem removeProperty (l : Location) (key : String) :
    Agree Same (s.removeProperty l key) (t.removeProperty l key) := by
  rw [Tree.removeProperty, Tree.removeProperty]
  exact h.modifyAt fun m n halike => .ok (halike.removeProperty key)

theorem addGroup (l : Location) (group : String) :
    Agree Same (s.addGroup l group) (t.addGroup l group) := by
  rw [Tree.addGroup, Tree.addGroup]
  exact h.modifyAt fun m n halike => .ok (halike.ensureGroup group)

end Same

end Tree

namespace Edit

theorem run_agree {s t : Tree} (h : s.Same t) (e : Edit) : Agree Tree.Same (e.run s) (e.run t) := by
  cases e with
  | insert l d => exact h.insert l rfl
  | replace l d => exact h.replace l d
  | delete l => exact h.delete l
  | move source target => exact h.move source target
  | putProperty l key value => exact h.putProperty l key value
  | rekeyProperty l old new => exact h.rekeyProperty l old new
  | removeProperty l key => exact h.removeProperty l key
  | addGroup l group => exact h.addGroup l group

end Edit

/-- Nor does the order say where a placement is. -/
theorem Placement.location_eq {s t : Tree} (h : s.Same t) (p : Placement) :
    p.location s = p.location t := by
  refine Agree.eq ?_
  cases p with
  | inFrontOf anchor =>
    refine (h.nodeAt anchor).bind fun _ _ _ => ?_
    split
    · exact .error _
    · exact .ok rfl
  | behind anchor =>
    refine (h.nodeAt anchor).bind fun _ _ _ => ?_
    cases anchor.parentAndStep? with
    | none => exact .error _
    | some place => exact .ok rfl
  | startOf parent group => exact (h.nodeAt parent).bind fun _ _ _ => .ok rfl
  | endOf parent group =>
    refine (h.nodeAt parent).bind fun m n halike => .ok ?_
    rw [halike.length_childrenOf]

end BlockEdit
