/-
Nothing that is asked of a tree, and nothing that is done to it, tells it
from a tree that is the same but for the order of properties and groups
(`Tree.indistinguishable_of_same`). The order shows in one place only: it is
the order in which a report comes.
-/
import BlockEdit.Drop.Appearance
import BlockEdit.Proofs.Drop.Slot
import BlockEdit.Proofs.Inspection.Order

namespace BlockEdit

/-- All answers of two trees agree, under a grammar. Edits make trees that are the same again,
and reports hold the same faults. -/
structure Indistinguishable (g : Grammar) (s t : Tree) : Prop where
  edits (e : Edit) : Agree Tree.Same (e.run s) (e.run t)
  placements (p : Placement) : p.location s = p.location t
  inspections : (s.inspect g).value.Perm (t.inspect g).value
  partialInspections (l : Location) :
    Agree (fun report report' => report.value.Perm report'.value) (s.inspectAt g l)
      (t.inspectAt g l)
  empty (l : Location) : s.slotIsEmpty l = t.slotIsEmpty l
  short (l : Location) : s.slotIsShort g l = t.slotIsShort g l
  takes (l : Location) (cargo : Cargo) : s.slotTakes g l cargo = t.slotTakes g l cargo
  insertions (l : Location) (cargo : Cargo) :
    s.insertLeavesValid g l cargo = t.insertLeavesValid g l cargo
  replacements (l : Location) (cargo : Cargo) :
    s.replaceLeavesValid g l cargo = t.replaceLeavesValid g l cargo
  appearances (l : Location) (drag : Drag) (visibility : Option Expression) (ledger : Ledger) :
    s.appearance g l drag visibility ledger = t.appearance g l drag visibility ledger

namespace Tree

theorem tryEdit_eq {x y : Except EditError Tree} (h : Agree Same x y) (g : Grammar) :
    tryEdit g x = tryEdit g y := by
  cases h with
  | error e => rfl
  | ok related =>
    have hperm := related.faults_perm g
    simp only [tryEdit, inspect, hperm.isEmpty_eq, hperm.length_eq]

namespace Same

variable {s t : Tree} (h : s.Same t) (g : Grammar) (l : Location) (cargo : Cargo)
include h

/-- Nodes that are alike have the same shape and as many children. -/
theorem resembles : Resembles g s t := by
  intro k
  rcases h.nodeAt?_cases k with hnone | ⟨m, n, hs, ht, halike⟩
  · exact .inl hnone
  · exact .inr ⟨m, n, hs, ht, halike.shapeOf?_eq g, halike.length_childrenOf⟩

theorem tryInsert_eq : s.tryInsert g l cargo = t.tryInsert g l cargo := by
  have htry : ∀ d, tryEdit g (s.insert l d) = tryEdit g (t.insert l d) :=
    fun d => tryEdit_eq (h.insert l rfl) g
  simp only [tryInsert, htry]

theorem tryReplace_eq : s.tryReplace g l cargo = t.tryReplace g l cargo := by
  have htry : ∀ d, tryEdit g (s.replace l d) = tryEdit g (t.replace l d) :=
    fun d => tryEdit_eq (h.replace l d) g
  simp only [tryReplace, htry]

theorem insertLeavesValid_eq :
    s.insertLeavesValid g l cargo = t.insertLeavesValid g l cargo := by
  rw [← tryInsert_value, h.tryInsert_eq, tryInsert_value]

theorem replaceLeavesValid_eq :
    s.replaceLeavesValid g l cargo = t.replaceLeavesValid g l cargo := by
  rw [← tryReplace_value, h.tryReplace_eq, tryReplace_value]

/-- The signals are bound to the same values and computations. -/
theorem signalBindings_eq (isDragging : Bool) :
    s.signalBindings g l cargo isDragging = t.signalBindings g l cargo isDragging := by
  have hbinding : ∀ signal : Signal,
      s.bindingOf g l cargo isDragging signal = t.bindingOf g l cargo isDragging signal := by
    intro signal
    cases signal with
    | empty => simp only [bindingOf, Signal.holds, (h.resembles g).slotIsEmpty_eq]
    | welcome => simp only [bindingOf, Signal.holds, (h.resembles g).slotTakes_eq]
    | valid => simp only [bindingOf, h.tryInsert_eq]
    | short => simp only [bindingOf, Signal.holds, (h.resembles g).slotIsShort_eq]
    | dragging => rfl
  simp only [signalBindings, hbinding]

theorem appearance_eq (drag : Drag) (visibility : Option Expression) (ledger : Ledger) :
    s.appearance g l drag visibility ledger = t.appearance g l drag visibility ledger := by
  simp only [appearance, h.signalBindings_eq]

end Same

/-- **Order carries no meaning.** Two trees that differ at most in the order of properties and
groups, at any level, answer alike under every grammar. An edit makes trees that are the same
again or fails in both for the same reason, a placement is at the same location, reports on the
whole and on a subtree hold the same faults as many times, and what is asked about a place has
the same answer, down to the record of what the answer has cost. -/
theorem indistinguishable_of_same {s t : Tree} (h : s.Same t) (g : Grammar) :
    Indistinguishable g s t where
  edits := Edit.run_agree h
  placements := Placement.location_eq h
  inspections := h.faults_perm g
  partialInspections := h.inspectAt_agree g
  empty := (h.resembles g).slotIsEmpty_eq
  short := (h.resembles g).slotIsShort_eq
  takes := (h.resembles g).slotTakes_eq
  insertions := h.insertLeavesValid_eq g
  replacements := h.replaceLeavesValid_eq g
  appearances := h.appearance_eq g

/-- A sheet has neither properties nor groups. -/
def plainSheets : Grammar := ⟨[(⟨"doc", "sheet"⟩, .concrete ⟨[]⟩)], none⟩

/-- A sheet that has two of each, and none in ascending order. -/
def sheet : Tree where
  root := some ⟨⟨"doc", "sheet"⟩, [("title", "Order"), ("author", "none")],
    [("body", [.leaf ⟨"doc", "sheet"⟩]), ("aside", [])]⟩
  wellFormed n hn := by
    cases hn
    decide +kernel

/-- Handed out and in again the sheet is in order. The reports show it, and no other answer does. -/
theorem indistinguishable_sheet_reload : sheet.Same sheet.reload ∧
    Indistinguishable plainSheets sheet sheet.reload ∧
    (sheet.inspect plainSheets).value ≠ (sheet.reload.inspect plainSheets).value := by
  have hsame : sheet.Same sheet.reload := by decide +kernel
  refine ⟨hsame, indistinguishable_of_same hsame plainSheets, ?_⟩
  decide +kernel

end Tree
end BlockEdit
