/-
The effect of a drop that the slot takes. The cheap question looks at no more
than the slot: that the group is declared, has room and admits the cargo. It
does not ask whether the tree is valid, or becomes so. What it promises is
that the drop does no harm: the parent keeps its shape, and all faults of the
parent's subtree are those that there were, less a child that was wanting,
and those that what was dropped has in itself.
-/
import BlockEdit.Proofs.Drop.Slot
import BlockEdit.Proofs.Inspection.Exactness
import BlockEdit.Proofs.Inspection.Insertion

namespace BlockEdit.Tree

variable {t t' : Tree} {g : Grammar} {parent : Location} {group : String} {i : Nat}
  {cargo : Cargo} {d : Description} {n m : Node} {c : Shape} {decl : GroupDecl}

/-- Where the group is declared just once, the slot takes a cargo only if that declaration
has room for one more. -/
theorem takesAnother_of_slotTakes (takes : t.slotTakes g (parent.child group i) cargo = true)
    (hn : t.nodeAt? parent = some n) (hc : g.shapeOf? n = some c)
    (once : c.groups.filter (·.name = group) = [decl]) :
    decl.bounds.takesAnother (n.childrenOf group).length = true := by
  obtain ⟨decl', hdecl, hroom, -⟩ := (slotTakes_child_iff_of_shapeOf? hn hc).1 takes
  rw [Shape.group?_of_once once] at hdecl
  cases hdecl
  exact hroom

/-- After the drop the group has not too many children. -/
theorem overfull_not_mem_of_insert (hm : n.insertChild? ⟨group, i⟩ d.toNode = some m)
    (wf : m.WellFormed) (hc : g.shapeOf? m = some c)
    (once : c.groups.filter (·.name = group) = [decl])
    (hroom : decl.bounds.takesAnother (n.childrenOf group).length = true) (max present : Nat) :
    ⟨parent, .groupOverfull group max present⟩ ∉ m.faults g parent := by
  intro h
  obtain ⟨decl', hdecl, hname, hmax, hcount⟩ := Node.overfull_of_mem_faults wf hc h
  obtain rfl := Shape.eq_of_once once hdecl hname
  have hlength := Node.length_childrenOf_insertChild?_self hm
  have hle := Bounds.takesAnother_iff.1 hroom max hmax
  rw [hname] at hcount
  dsimp only at hlength
  omega

/-- What was dropped is not refused. -/
theorem refused_not_mem_of_insert (hm : n.insertChild? ⟨group, i⟩ d.toNode = some m)
    (wf : m.WellFormed) (hc : g.shapeOf? m = some c)
    (once : c.groups.filter (·.name = group) = [decl])
    (hadmits : g.admits decl d.typeName = true) (name : String) (type : TypeName) :
    ⟨parent.child group i, .childRefused name type⟩ ∉ m.faults g parent := by
  intro h
  obtain ⟨decl', hdecl, hname, child, hchild, hrefused⟩ := Node.refused_of_mem_faults wf hc h
  obtain rfl := Shape.eq_of_once once hdecl hname
  rw [Node.child?_insertChild?_self hm] at hchild
  cases hchild
  rw [Description.name_toNode, hadmits] at hrefused
  cases hrefused

/-- **The effect of a drop.** Where the slot takes a cargo, and the parent's shape declares
the group just once, a form of the cargo that the group admits leaves the parent its shape,
also if the parent's type is an alternative one and the group is new to it. Up to order, the
faults of the parent's subtree are then those from before, with the later siblings moved up
and one child less wanting, and those of what was dropped. That one is not refused, and the
group has not too many children. -/
theorem faults_of_insert_of_slotTakes
    (takes : t.slotTakes g (parent.child group i) cargo = true)
    (hn : t.nodeAt? parent = some n) (hc : g.shapeOf? n = some c)
    (once : c.groups.filter (·.name = group) = [decl])
    (admits : g.admits decl d.typeName = true)
    (hins : t.insert (parent.child group i) d = .ok t') :
    ∃ m, t'.nodeAt? parent = some m ∧ g.shapeOf? m = some c ∧
      ∃ old new below, t.inspectAt g parent = .ok old ∧ t'.inspectAt g parent = .ok new ∧
        t'.inspectAt g (parent.child group i) = .ok below ∧
        new.value.Perm
          (old.value.filterMap (Fault.afterInsertion parent ⟨group, i⟩) ++ below.value) ∧
        (∀ max present, ⟨parent, .groupOverfull group max present⟩ ∉ new.value) ∧
        ∀ name type, ⟨parent.child group i, .childRefused name type⟩ ∉ new.value := by
  obtain ⟨n', m, hn', hm, hparent, hchild⟩ := nodeAt?_of_insert hins
  rw [hn] at hn'
  cases hn'
  have hroom := takesAnother_of_slotTakes takes hn hc once
  have hgroup : (c.group? group).isSome = true := by rw [Shape.group?_of_once once]; rfl
  have hcm := Node.shapeOf?_of_insertChild? hm hc hgroup
  have wf := wellFormed_of_nodeAt? hparent
  have hadmits : g.admits decl d.toNode.name = true := by rwa [Description.name_toNode]
  refine ⟨m, hparent, hcm, _, _, _, inspectAt_of_nodeAt? g hn, inspectAt_of_nodeAt? g hparent,
    inspectAt_of_nodeAt? g hchild, ?_, ?_, ?_⟩
  · exact Node.faults_perm_of_insertChild? hm hc once hroom hadmits
  · exact overfull_not_mem_of_insert hm wf hcm once hroom
  · exact refused_not_mem_of_insert hm wf hcm once admits

/-! ## A case of it -/

def parts : GroupDecl := ⟨"parts", .sequence, [⟨"book", "section"⟩], ⟨2, none⟩⟩

/-- A section is a chapter of at least two parts, or a paragraph. -/
def outline : Grammar where
  types := [
    (⟨"book", "chapter"⟩, .concrete ⟨[.group parts]⟩),
    (⟨"book", "paragraph"⟩, .concrete ⟨[]⟩),
    (⟨"book", "section"⟩, .oneOf [⟨"book", "chapter"⟩, ⟨"book", "paragraph"⟩])]
  root := none

def paragraph : Description := ⟨"book", "paragraph", none, none⟩

/-- A section that does not have the group of its parts yet. -/
def bare : Description := ⟨"book", "section", none, none⟩

def begun : Description := ⟨"book", "section", none, some [("parts", [paragraph])]⟩

/-- The first part makes the group, and of two children wanting one is left. -/
theorem faults_of_insert_of_bare_section :
    (ofDescription bare).slotTakes outline (Location.root.child "parts" 0) [paragraph] = true ∧
    (ofDescription bare).insert (Location.root.child "parts" 0) paragraph =
      .ok (ofDescription begun) ∧
    ∃ new, (ofDescription begun).inspectAt outline .root = .ok new ∧
      new.value.Perm [⟨.root, .groupShort "parts" 1⟩] := by
  have takes : (ofDescription bare).slotTakes outline (Location.root.child "parts" 0)
      [paragraph] = true := by decide +kernel
  have hnode : (ofDescription bare).nodeAt? .root = some bare.toNode := rfl
  have hshape : outline.shapeOf? bare.toNode = some ⟨[.group parts]⟩ := by decide +kernel
  have admits : outline.admits parts paragraph.typeName = true := by decide +kernel
  have hins : (ofDescription bare).insert (Location.root.child "parts" 0) paragraph =
    .ok (ofDescription begun) := rfl
  obtain ⟨m, -, -, old, new, below, hold, hnew, hbelow, hperm, -, -⟩ :=
    faults_of_insert_of_slotTakes takes hnode hshape (by decide) admits hins
  have hbefore : old.value = [⟨.root, .groupShort "parts" 2⟩] := by
    rw [inspectAt_of_nodeAt? outline hnode] at hold
    cases hold
    decide +kernel
  have hchild : below.value = [] := by
    have hparagraph : (ofDescription begun).nodeAt? (Location.root.child "parts" 0) =
      some paragraph.toNode := rfl
    rw [inspectAt_of_nodeAt? outline hparagraph] at hbelow
    cases hbelow
    decide +kernel
  rw [hbefore, hchild, List.append_nil] at hperm
  exact ⟨takes, hins, new, hnew, hperm⟩

end BlockEdit.Tree
