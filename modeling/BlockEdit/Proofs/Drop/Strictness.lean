/-
The dear question about a drop and the cheap one. A drop that leaves a valid
tree is one that the slot takes, but for a single case: the parent is of an
alternative type and gets the group with the drop. The cheap question asks
the shape of the parent as it is, and that shape need not declare a group
that the parent does not have; the dear one finds another shape for it
afterwards (`slotTakes_eq_false_iff_of_insertLeavesValid`).
-/
import BlockEdit.Grammar.Combination
import BlockEdit.Proofs.Drop.Slot
import BlockEdit.Proofs.Inspection.Conformance
import BlockEdit.Proofs.Tree.Insertion

namespace BlockEdit.Tree

variable {t : Tree} {g : Grammar} {parent : Location} {group : String} {i : Nat} {cargo : Cargo}

theorem insertLeavesValid_iff {l : Location} : t.insertLeavesValid g l cargo = true ↔
    ∃ d ∈ cargo, ∃ t', t.insert l d = .ok t' ∧ t'.isValid g = true := by
  rw [insertLeavesValid, List.any_eq_true]
  refine exists_congr fun d => and_congr_right fun _ => ?_
  cases t.insert l d with
  | error e => simp [leavesValid]
  | ok t' => simp [leavesValid]

/-- The parent of a drop that leaves a valid tree, before and after: afterwards it has a
shape that declares the group, with room for the new child, and that admits it. -/
theorem parent_of_insertLeavesValid
    (h : t.insertLeavesValid g (parent.child group i) cargo = true) :
    ∃ n m c, t.nodeAt? parent = some n ∧ (∃ children, m = n.setGroup group children) ∧
      g.shapeOf? m = some c ∧ (∃ decl ∈ c.groups, decl.name = group) ∧
      ∀ decl ∈ c.groups, decl.name = group →
        decl.bounds.takesAnother (n.childrenOf group).length = true ∧
        ∃ d ∈ cargo, g.admits decl d.typeName = true := by
  obtain ⟨d, hd, t', hins, hvalid⟩ := insertLeavesValid_iff.1 h
  obtain ⟨n, m, hn, hm, hparent, -⟩ := nodeAt?_of_insert hins
  obtain ⟨-, hset⟩ := Node.insertChild?_eq_some_iff.1 hm
  have hlength := Node.length_childrenOf_insertChild?_self hm
  have hchild := Node.child?_insertChild?_self hm
  obtain ⟨hshape, -, -, -, hcounts, hadmitted, -, hgroups⟩ := conforms_of_nodeAt? hvalid hparent
  refine ⟨n, m, _, hn, ⟨_, hset⟩, hshape, ?_, ?_⟩
  · exact hgroups group (Entries.has_iff.1 (Node.hasGroup_of_child? hchild))
  · rintro decl hdecl rfl
    refine ⟨?_, d, hd, ?_⟩
    · rw [Bounds.takesAnother_iff, ← hlength]
      exact (hcounts decl hdecl).2
    · have hadmits := hadmitted decl hdecl _ (List.mem_of_getElem? hchild)
      rwa [Description.name_toNode] at hadmits

/-- Where the parent's shape declares the group, it is the shape afterwards too, and the slot
takes what was dropped. -/
theorem slotTakes_of_insertLeavesValid {n : Node} {c : Shape}
    (h : t.insertLeavesValid g (parent.child group i) cargo = true)
    (hn : t.nodeAt? parent = some n) (hc : g.shapeOf? n = some c)
    (hgroup : (c.group? group).isSome = true) :
    t.slotTakes g (parent.child group i) cargo = true := by
  obtain ⟨n', m, c', hn', ⟨children, rfl⟩, hc', -, hrules⟩ := parent_of_insertLeavesValid h
  rw [hn] at hn'
  cases hn'
  rw [Grammar.shapeOf?_setGroup children hc hgroup] at hc'
  cases hc'
  obtain ⟨decl, hdecl⟩ := Option.isSome_iff_exists.1 hgroup
  obtain ⟨hmem, hname⟩ := Shape.of_group?_eq_some hdecl
  exact (slotTakes_child_iff_of_shapeOf? hn hc).2 ⟨decl, hdecl, hrules decl hmem hname⟩

/-- Where it does not, the type of the parent is an alternative one, and the group is new. -/
theorem oneOf_of_insertLeavesValid {n : Node} {c : Shape}
    (h : t.insertLeavesValid g (parent.child group i) cargo = true)
    (hn : t.nodeAt? parent = some n) (hc : g.shapeOf? n = some c)
    (hgroup : c.group? group = none) :
    ∃ members, g.get? n.name = some (.oneOf members) ∧ n.hasGroup group = false := by
  obtain ⟨n', m, c', hn', ⟨children, rfl⟩, hc', ⟨decl, hdecl, hname⟩, -⟩ :=
    parent_of_insertLeavesValid h
  rw [hn] at hn'
  cases hn'
  have hnot := Shape.group?_eq_none_iff.1 hgroup
  obtain ⟨type, hg⟩ := Option.isSome_iff_exists.1 (Grammar.defines_of_shapeOf? hc)
  cases type with
  | concrete c'' =>
    rw [Grammar.shapeOf?_of_concrete hg] at hc
    rw [Grammar.shapeOf?_of_concrete (n := n.setGroup group children) hg, hc] at hc'
    cases hc'
    exact absurd hname (hnot decl hdecl)
  | oneOf members =>
    refine ⟨members, hg, ?_⟩
    rw [← Bool.not_eq_true, Node.hasGroup, Entries.has_iff]
    intro hkey
    obtain ⟨decl, hdecl, hname⟩ := (Grammar.declares_of_shapeOf? hg hc).2 group hkey
    exact hnot decl hdecl hname

/-- **Strict and permissive drops.** If dropping the cargo leaves a valid tree, the slot takes
the cargo, unless the parent is of an alternative type, has no such group yet, and has a
shape that does not declare it. In that case, and in no other, the slot does not. -/
theorem slotTakes_eq_false_iff_of_insertLeavesValid
    (h : t.insertLeavesValid g (parent.child group i) cargo = true) :
    t.slotTakes g (parent.child group i) cargo = false ↔
      ∃ n members c, t.nodeAt? parent = some n ∧ g.get? n.name = some (.oneOf members) ∧
        n.hasGroup group = false ∧ g.shapeOf? n = some c ∧ c.group? group = none := by
  constructor
  · intro hfalse
    obtain ⟨n, m, c', hn, ⟨children, rfl⟩, hc', -, -⟩ := parent_of_insertLeavesValid h
    obtain ⟨c, hc⟩ := Grammar.exists_shapeOf?_of_setGroup hc'
    cases hgroup : c.group? group with
    | some decl =>
      rw [slotTakes_of_insertLeavesValid h hn hc (by rw [hgroup]; rfl)] at hfalse
      cases hfalse
    | none =>
      obtain ⟨members, hg, hnew⟩ := oneOf_of_insertLeavesValid h hn hc hgroup
      exact ⟨n, members, c, hn, hg, hnew, hc, hgroup⟩
  · intro h
    obtain ⟨n, members, c, hn, -, -, hc, hgroup⟩ := h
    rw [← Bool.not_eq_true, slotTakes_child_iff_of_shapeOf? hn hc]
    intro h
    obtain ⟨decl, hdecl, -⟩ := h
    rw [hgroup] at hdecl
    cases hdecl

/-! ## Where the questions part -/

/-- A block is a rule, or it is a quote, and then it has blocks in its body. -/
def pageSpec : GrammarSpec where
  name := "page"
  root := none
  types := [("page", [
    ("block", { kind := .oneOf, attributes := [], oneOf := [⟨"page", "rule"⟩, ⟨"page", "quote"⟩] }),
    ("rule", { kind := .concrete, attributes := [], oneOf := [] }),
    ("quote", { kind := .concrete, attributes := [body], oneOf := [] })])]
where
  body : AttributeSpec :=
    { kind := .sequence, name := some "body", literal := none, isOptional := none,
      types := [⟨"page", "block"⟩], atLeast := none, atMost := none, symbol := none }

def page : Grammar where
  types := [
    (⟨"page", "block"⟩, .oneOf [⟨"page", "rule"⟩, ⟨"page", "quote"⟩]),
    (⟨"page", "quote"⟩, .concrete ⟨[.group ⟨"body", .sequence, [⟨"page", "block"⟩], .unbounded⟩]⟩),
    (⟨"page", "rule"⟩, .concrete ⟨[]⟩)]
  root := none

/-- A block that has nothing in it, and so has the shape of a rule. -/
def block : Description := ⟨"page", "block", none, none⟩

/-- A block in an empty block makes that one a quote, but a rule takes no blocks. -/
theorem insertLeavesValid_not_imp_slotTakes : ¬ ∀ (ds : List GrammarSpec) (g : Grammar) (t : Tree)
    (l : Location) (cargo : Cargo), (Grammar.combine ds).value = .ok g → l ≠ .root →
      t.insertLeavesValid g l cargo = true → t.slotTakes g l cargo = true := by
  intro h
  have htakes := h [pageSpec] page (ofDescription block) (Location.root.child "body" 0) [block] rfl
    (by decide) (by decide +kernel)
  exact absurd htakes (by decide +kernel)

/-- The same drop is the one case that the equivalence names. -/
theorem slotTakes_eq_false_iff_of_empty_block :
    (ofDescription block).insertLeavesValid page (Location.root.child "body" 0) [block] = true ∧
    ∃ n members c, (ofDescription block).nodeAt? .root = some n ∧
      page.get? n.name = some (.oneOf members) ∧ n.hasGroup "body" = false ∧
      page.shapeOf? n = some c ∧ c.group? "body" = none := by
  have hvalid : (ofDescription block).insertLeavesValid page (Location.root.child "body" 0)
      [block] = true := by decide +kernel
  refine ⟨hvalid, (slotTakes_eq_false_iff_of_insertLeavesValid hvalid).1 ?_⟩
  decide +kernel

end BlockEdit.Tree
