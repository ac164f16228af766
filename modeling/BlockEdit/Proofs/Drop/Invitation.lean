/-
What it means that a place invites the cargo, where no expression of its own
is set. The question that is asked then looks at the group and at the cargo,
and not at the index. So an insertion there can fail, but for one cause only:
the index is above the number of children, and then it fails for every form of
the cargo. At any other index every form can come in
(`insert_of_inviting`).
-/
import BlockEdit.Grammar.Combination
import BlockEdit.Proofs.Drop.Appearance
import BlockEdit.Proofs.Drop.Slot
import BlockEdit.Proofs.Tree.Insertion

namespace BlockEdit.Tree

variable {t : Tree} {g : Grammar} {l : Location} {drag : Drag} {ledger : Ledger}

/-- Without an expression of its own a place invites what its slot takes. -/
theorem inviting_iff : (t.appearance g l drag none ledger).1 = .inviting ↔
    drag.pointer ≠ some l ∧ ∃ cargo, drag.cargo = some cargo ∧ t.slotTakes g l cargo = true := by
  have h := t.appearance_eq g ⟨l, drag, none⟩ ledger
  dsimp only at h
  rw [h]
  dsimp only [Question.answer]
  cases drag.cargo with
  | none => simp
  | some cargo =>
    have hvalue := signalValue_name t g l cargo .welcome
    rw [Signal.holds] at hvalue
    by_cases hpointer : drag.pointer = some l
    · simp [hpointer]
    · simp [hpointer, Question.expression, usualVisibility, Expression.holds, hvalue]

/-- **Where an invited cargo can be dropped.** A place that invites is in a group that the
parent's shape declares, and that admits a form of the cargo. If the index is at most the
number of children there, every form can be inserted, and if it is not, none can. -/
theorem insert_of_inviting (h : (t.appearance g l drag none ledger).1 = .inviting) :
    ∃ cargo parent group i n c decl, drag.cargo = some cargo ∧ l = parent.child group i ∧
      t.nodeAt? parent = some n ∧ g.shapeOf? n = some c ∧ c.group? group = some decl ∧
      (∃ d ∈ cargo, g.admits decl d.typeName = true) ∧
      ∀ d : Description,
        (i ≤ (n.childrenOf group).length → ∃ t', t.insert l d = .ok t') ∧
        ((n.childrenOf group).length < i → t.insert l d = .error (.noSuchLocation l)) := by
  obtain ⟨-, cargo, hcargo, htakes⟩ := inviting_iff.1 h
  cases hl : l.parentAndStep? with
  | none => simp [slotTakes, hl] at htakes
  | some last =>
    obtain ⟨parent, group, i⟩ := last
    obtain rfl := Location.parentAndStep?_eq_some_iff.1 hl
    obtain ⟨n, c, decl, hn, hc, hdecl, -, hadmits⟩ := slotTakes_child_iff.1 htakes
    refine ⟨cargo, parent, group, i, n, c, decl, hcargo, rfl, hn, hc, hdecl, hadmits, ?_⟩
    -- nothing is known of the index, and an insertion goes by nothing else here
    intro d
    refine ⟨fun hi => exists_insert_child_iff.2 ⟨n, hn, hi⟩, fun hi => ?_⟩
    refine insert_child_of_not_hasSlot ?_ d
    rintro ⟨n', hn', hi'⟩
    rw [hn] at hn'
    cases hn'
    exact absurd hi' (Nat.not_le_of_lt hi)

/-! ## Behind the last child, and farther -/

/-- A shelf has any number of books. -/
def shelfSpec : GrammarSpec where
  name := "library"
  root := none
  types := [("library", [
    ("book", { kind := .concrete, attributes := [], oneOf := [] }),
    ("shelf", { kind := .concrete, attributes := [books], oneOf := [] })])]
where
  books : AttributeSpec :=
    { kind := .sequence, name := some "books", literal := none, isOptional := none,
      types := [⟨"library", "book"⟩], atLeast := none, atMost := none, symbol := none }

def shelfGrammar : Grammar where
  types := [
    (⟨"library", "book"⟩, .concrete ⟨[]⟩),
    (⟨"library", "shelf"⟩,
      .concrete ⟨[.group ⟨"books", .sequence, [⟨"library", "book"⟩], .unbounded⟩]⟩)]
  root := none

def book : Description := ⟨"library", "book", none, none⟩

def shelf (books : List Description) : Description :=
  ⟨"library", "shelf", none, some [("books", books)]⟩

/-- A book can be put behind the one that is there. -/
theorem insert_of_inviting_behind_last :
    ((ofDescription (shelf [book])).appearance shelfGrammar (Location.root.child "books" 1)
      ⟨some [book], none⟩ none .empty).1 = .inviting ∧
    ∃ t', (ofDescription (shelf [book])).insert (Location.root.child "books" 1) book = .ok t' := by
  have hinviting : ((ofDescription (shelf [book])).appearance shelfGrammar
      (Location.root.child "books" 1) ⟨some [book], none⟩ none .empty).1 = .inviting := by
    decide +kernel
  obtain ⟨cargo, parent, group, i, n, c, decl, -, hl, hn, -, -, -, hinsert⟩ :=
    insert_of_inviting hinviting
  obtain ⟨rfl, rfl, rfl⟩ := Location.child_inj hl
  have hnode : (ofDescription (shelf [book])).nodeAt? .root = some (shelf [book]).toNode := rfl
  rw [hnode] at hn
  cases hn
  exact ⟨hinviting, (hinsert book).1 (by decide +kernel)⟩

/-- The place behind that one invites too, where there are no books at all, but a book cannot
be put there. -/
theorem not_exists_insert_of_inviting : ¬ ∀ (ds : List GrammarSpec) (g : Grammar) (t : Tree)
    (l : Location) (drag : Drag) (ledger : Ledger), (Grammar.combine ds).value = .ok g →
      (t.appearance g l drag none ledger).1 = .inviting →
      ∃ cargo parent s decl count, drag.cargo = some cargo ∧ l.parentAndStep? = some (parent, s) ∧
        t.declaredSlot? g parent s = some (decl, count) ∧
        ∃ d ∈ cargo, g.admits decl d.typeName = true ∧ ∃ t', t.insert l d = .ok t' := by
  intro h
  obtain ⟨cargo, -, -, -, -, -, -, -, d, -, -, t', hins⟩ :=
    h [shelfSpec] shelfGrammar (ofDescription (shelf [])) (Location.root.child "books" 1)
      ⟨some [book], none⟩ .empty rfl (by decide +kernel)
  obtain ⟨n, hn, hle⟩ := exists_insert_child_iff.1 ⟨t', hins⟩
  have hnode : (ofDescription (shelf [])).nodeAt? .root = some (shelf []).toNode := rfl
  rw [hnode] at hn
  cases hn
  exact absurd hle (by decide +kernel)

end BlockEdit.Tree
