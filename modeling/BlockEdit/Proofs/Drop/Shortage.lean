/-
Groups that are short of children, as the cheap question about a slot and the
report of an inspection see them. Whatever the question calls short is
reported. The report has more only where a type declares a group twice: the
question asks the first declaration, and the inspection goes by each of them
(`exists_groupShort_mem_inspectAt_iff`).
-/
import BlockEdit.Grammar.Combination
import BlockEdit.Proofs.Drop.Slot
import BlockEdit.Proofs.Inspection.Exactness

namespace BlockEdit

namespace Node

variable {g : Grammar} {n : Node} {l : Location} {group : String}

/-- That a group is short of children is reported of the node that should have them. -/
theorem exists_groupShort_mem_faults_iff (wf : n.WellFormed) :
    (∃ missing, ⟨l, .groupShort group missing⟩ ∈ n.faults g l) ↔
      ∃ c, g.shapeOf? n = some c ∧ ∃ decl ∈ c.groups, decl.name = group ∧
        0 < decl.bounds.shortfall (n.childrenOf group).length := by
  constructor
  · intro h
    obtain ⟨missing, h⟩ := h
    obtain ⟨l', m, hv, hf⟩ := (mem_faults_iff wf).1 h
    cases hf with
    | groupShort shape declared wanting count =>
      have htop := hv.eq_top
      subst htop
      refine ⟨_, shape, _, declared, rfl, ?_⟩
      rw [Bounds.shortfall]
      omega
  · intro h
    obtain ⟨c, hc, decl, hdecl, rfl, hshort⟩ := h
    rw [Bounds.shortfall] at hshort
    refine ⟨decl.bounds.min - (n.childrenOf decl.name).length, ?_⟩
    refine (mem_faults_iff wf).2 ⟨l, n, .top, .groupShort hc hdecl hshort ?_⟩
    omega

end Node

namespace Tree

variable {t : Tree} {g : Grammar} {parent : Location} {group : String} {i : Nat}

theorem inspectAt_eq_ok_iff {l : Location} {report : Logged (List Fault)} :
    t.inspectAt g l = .ok report ↔ ∃ n, t.nodeAt? l = some n ∧
      report = ⟨n.faults g l, [.inspectedSubtree (n.faults g l).length l.depth]⟩ := by
  cases hn : t.nodeAt? l with
  | none => simp [inspectAt, nodeAt, hn, bind, Except.bind]
  | some n => simp [inspectAt_of_nodeAt? g hn, eq_comm]

/-- An inspection of the parent reports the group just when some declaration of it wants
more children. -/
theorem exists_groupShort_mem_inspectAt_iff_declared :
    (∃ report, t.inspectAt g parent = .ok report ∧
      ∃ missing, ⟨parent, .groupShort group missing⟩ ∈ report.value) ↔
    ∃ n c, t.nodeAt? parent = some n ∧ g.shapeOf? n = some c ∧ ∃ decl ∈ c.groups,
      decl.name = group ∧ 0 < decl.bounds.shortfall (n.childrenOf group).length := by
  constructor
  · intro h
    obtain ⟨_, hreport, hmem⟩ := h
    obtain ⟨n, hn, rfl⟩ := inspectAt_eq_ok_iff.1 hreport
    obtain ⟨c, hc, hdecl⟩ :=
      (Node.exists_groupShort_mem_faults_iff (wellFormed_of_nodeAt? hn)).1 hmem
    exact ⟨n, c, hn, hc, hdecl⟩
  · intro h
    obtain ⟨n, c, hn, hc, hdecl⟩ := h
    exact ⟨_, inspectAt_of_nodeAt? g hn,
      (Node.exists_groupShort_mem_faults_iff (wellFormed_of_nodeAt? hn)).2 ⟨c, hc, hdecl⟩⟩

/-- **What is short of children.** An inspection of the parent reports that the group is
short of children just when the slot is short, or when the first declaration of the group has
enough of them and another one has not. -/
theorem exists_groupShort_mem_inspectAt_iff :
    (∃ report, t.inspectAt g parent = .ok report ∧
      ∃ missing, ⟨parent, .groupShort group missing⟩ ∈ report.value) ↔
    t.slotIsShort g (parent.child group i) = true ∨
      ∃ n c first other, t.nodeAt? parent = some n ∧ g.shapeOf? n = some c ∧
        c.group? group = some first ∧ first.bounds.shortfall (n.childrenOf group).length = 0 ∧
        other ∈ c.groups ∧ other.name = group ∧
        0 < other.bounds.shortfall (n.childrenOf group).length := by
  rw [exists_groupShort_mem_inspectAt_iff_declared, slotIsShort_child_iff]
  constructor
  · intro h
    obtain ⟨n, c, hn, hc, decl, hdecl, hname, hshort⟩ := h
    -- the slot goes by the first declaration of that name, which may be another one
    obtain ⟨first, hfirst⟩ :=
      Option.isSome_iff_exists.1 (Shape.group?_isSome_iff.2 ⟨decl, hdecl, hname⟩)
    rcases Nat.eq_zero_or_pos (first.bounds.shortfall (n.childrenOf group).length) with h0 | hpos
    · exact .inr ⟨n, c, first, decl, hn, hc, hfirst, h0, hdecl, hname, hshort⟩
    · exact .inl ⟨n, c, first, hn, hc, hfirst, hpos⟩
  · intro h
    rcases h with ⟨n, c, first, hn, hc, hfirst, hpos⟩ |
      ⟨n, c, first, other, hn, hc, -, -, hother, hname, hshort⟩
    · obtain ⟨hmem, hname⟩ := Shape.of_group?_eq_some hfirst
      exact ⟨n, c, hn, hc, first, hmem, hname, hpos⟩
    · exact ⟨n, c, hn, hc, other, hother, hname, hshort⟩

/-! ## A group declared twice -/

/-- A choir has singers, and by a second declaration it has one at least. -/
def choirSpec : GrammarSpec where
  name := "music"
  root := none
  types := [("music", [
    ("choir", { kind := .concrete, attributes := [singers none, singers (some 1)], oneOf := [] }),
    ("singer", { kind := .concrete, attributes := [], oneOf := [] })])]
where
  singers (atLeast : Option Nat) : AttributeSpec :=
    { kind := .sequence, name := some "singers", literal := none, isOptional := none,
      types := [⟨"music", "singer"⟩], atLeast, atMost := none, symbol := none }

def choirGrammar : Grammar where
  types := [
    (⟨"music", "choir"⟩, .concrete ⟨[.group (singers 0), .group (singers 1)]⟩),
    (⟨"music", "singer"⟩, .concrete ⟨[]⟩)]
  root := none
where
  singers (min : Nat) : GroupDecl := ⟨"singers", .sequence, [⟨"music", "singer"⟩], ⟨min, none⟩⟩

def choir : Description := ⟨"music", "choir", none, none⟩

/-- The slot of a choir without singers is not short of them, but the report says that one is
wanting. -/
theorem not_slotIsShort_iff_groupShort_mem : ¬ ∀ (ds : List GrammarSpec) (g : Grammar) (t : Tree)
    (parent : Location) (group : String) (i : Nat), (Grammar.combine ds).value = .ok g →
      (t.slotIsShort g (parent.child group i) = true ↔ ∃ report, t.inspectAt g parent = .ok report ∧
        ∃ missing, ⟨parent, .groupShort group missing⟩ ∈ report.value) := by
  intro h
  have hagree := h [choirSpec] choirGrammar (ofDescription choir) .root "singers" 0 rfl
  have hreport : ⟨.root, .groupShort "singers" 1⟩ ∈ choir.toNode.faults choirGrammar .root := by
    decide +kernel
  have hshort := hagree.2 ⟨_, inspectAt_of_nodeAt? choirGrammar rfl, 1, hreport⟩
  exact absurd hshort (by decide +kernel)

end Tree
end BlockEdit
