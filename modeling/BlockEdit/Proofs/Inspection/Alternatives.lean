/-
An alternative type beside its members. A node of an alternative type gets the
report that it would get under the name of the member chosen for it
(`Node.faults_retyped_of_memberFor?`), and no other member is tried. That one
is chosen by names: what it demands of the values, of the number of children
and of their types comes later and does not count.

A member under whose name the node has no faults is always one that suits it.
So the first that suits is chosen, and its report decides
(`Tree.inspectAt_of_member`). It may have faults, and then the node has them
too, although another member would have none.
-/
import BlockEdit.Grammar.Combination
import BlockEdit.Proofs.Grammar.MemberChoice
import BlockEdit.Proofs.Inspection.Conformance

namespace BlockEdit

namespace Node

variable {g : Grammar} {n : Node} {a : TypeName} {c : Shape} {l : Location}

/-- The same node under another name. -/
def retyped (n : Node) (a : TypeName) : Node := { n with name := a }

theorem WellFormed.retyped (h : n.WellFormed) (a : TypeName) : (n.retyped a).WellFormed := by
  obtain ⟨hproperties, hgroups, hnested⟩ := h
  exact .intro hproperties hgroups hnested

/-- Beyond the shape that is found by it, the name of a node does not matter to its report. -/
theorem faults_retyped (hn : g.shapeOf? n = some c) (ha : g.shapeOf? (n.retyped a) = some c) :
    (n.retyped a).faults g l = n.faults g l := by
  rw [faults_of_shapeOf? hn, faults_of_shapeOf? ha]
  rfl

theorem shapeOf?_retyped (h : g.shape? a = some c) : g.shapeOf? (n.retyped a) = some c :=
  Grammar.shapeOf?_of_concrete (Grammar.shape?_eq_some_iff.1 h)

theorem faults_retyped_of_memberFor? {members : List TypeName}
    (hg : g.get? n.name = some (.oneOf members)) (h : g.memberFor? n = some a) :
    (n.retyped a).faults g l = n.faults g l := by
  obtain ⟨c, hc⟩ := Grammar.exists_shape?_of_mem_standsFor (Grammar.mem_standsFor_of_memberFor? h)
  refine faults_retyped ?_ (shapeOf?_retyped hc)
  rw [Grammar.shapeOf?_eq_shape?_memberFor? hg, h, Option.bind_some, hc]

/-- A node without faults under the name of a shape has the names that the shape asks for. -/
theorem suits_of_faults_retyped (hc : g.shape? a = some c) (h : (n.retyped a).faults g l = []) :
    g.suits n a = true := by
  obtain ⟨c', hc', hproperties, -, hgroups⟩ := faults_eq_nil_iff_step.1 h
  rw [shapeOf?_retyped hc] at hc'
  cases hc'
  obtain ⟨hpresent, -, hdeclared⟩ := Shape.propertyFaults_eq_nil_iff.1 hproperties
  have hfits : c.fits n = true := Shape.fits_iff_declares.2 ⟨hdeclared, hgroups⟩
  have hcomplete : c.isCompleteIn n = true := by
    rw [Shape.isCompleteIn, List.all_eq_true]
    intro p hp
    cases hopt : p.isOptional with
    | true => rfl
    | false => exact hpresent p hp hopt
  rw [Grammar.suits, Grammar.fitsAs, Grammar.isCompleteAs, hc, Option.any_some, Option.any_some,
    hfits, hcomplete, Bool.and_self]

end Node

namespace Tree

variable {t : Tree} {g : Grammar} {n : Node} {m : TypeName}

/-- The tree with another name for its root. -/
def retypeRoot (t : Tree) (a : TypeName) : Tree where
  root := t.root.map (·.retyped a)
  wellFormed n hn := by
    obtain ⟨root, hr, rfl⟩ := Option.map_eq_some_iff.1 hn
    exact (t.wellFormed root hr).retyped a

theorem inspectAt_root (hr : t.root = some n) : t.inspectAt g .root =
    .ok ⟨n.faults g .root, [.inspectedSubtree (n.faults g .root).length 0]⟩ := by
  apply inspectAt_of_nodeAt?
  rw [nodeAt?, hr]
  rfl

theorem root_retypeRoot (hr : t.root = some n) (a : TypeName) :
    (t.retypeRoot a).root = some (n.retyped a) := by
  show t.root.map (·.retyped a) = _
  rw [hr, Option.map_some]

/-- **Alternatives.** Let the root be of an alternative type, and let it have no faults under the
name of one of the members. Then some member suits it, and its report is the one that it has under
the name of the first that does. If no member suits it that is listed ahead of the given one, the
report is without faults. -/
theorem inspectAt_of_member {members : List TypeName} {report : Logged (List Fault)}
    (hr : t.root = some n) (hg : g.get? n.name = some (.oneOf members))
    (hm : m ∈ g.standsFor n.name) (hreport : (t.retypeRoot m).inspectAt g .root = .ok report)
    (hclean : report.value = []) :
    ∃ a, (g.standsFor n.name).find? (g.suits n) = some a ∧
      t.inspectAt g .root = (t.retypeRoot a).inspectAt g .root ∧
      ∀ ahead behind, g.standsFor n.name = ahead ++ m :: behind →
        (∀ b ∈ ahead, g.suits n b = false) → t.inspectAt g .root = .ok report := by
  obtain ⟨c, hc⟩ := Grammar.exists_shape?_of_mem_standsFor hm
  have hsuits : g.suits n m = true := by
    rw [inspectAt_root (root_retypeRoot hr m), Except.ok.injEq] at hreport
    subst hreport
    exact Node.suits_of_faults_retyped hc hclean
  obtain ⟨a, hchosen, hfirst⟩ := Grammar.exists_memberFor?_eq_find? hm hsuits
  have hsame : t.inspectAt g .root = (t.retypeRoot a).inspectAt g .root := by
    rw [inspectAt_root hr, inspectAt_root (root_retypeRoot hr a),
      Node.faults_retyped_of_memberFor? hg hchosen]
  refine ⟨a, hfirst, hsame, fun ahead behind hsplit hahead => ?_⟩
  have hfirst' : (g.standsFor n.name).find? (g.suits n) = some m := by
    refine List.find?_eq_some_iff_append.2 ⟨hsuits, ahead, behind, hsplit, fun b hb => ?_⟩
    rw [hahead b hb, Bool.not_false]
  cases Option.some.inj (hfirst.symm.trans hfirst')
  rw [hsame, hreport]

/-- An entry is a count or else a label, both of which have a value. -/
def formSpec : GrammarSpec where
  name := "form"
  root := none
  types := [("form", [
    ("count", { kind := .concrete, attributes := [value .integer], oneOf := [] }),
    ("entry", { kind := .oneOf, attributes := [], oneOf := [⟨"form", "count"⟩, ⟨"form", "label"⟩] }),
    ("label", { kind := .concrete, attributes := [value .text], oneOf := [] })])]
where
  value (literal : Literal) : AttributeSpec :=
    { kind := .property, name := some "value", literal := some literal, isOptional := none,
      types := [], atLeast := none, atMost := none, symbol := none }

def form : Grammar where
  types := [
    (⟨"form", "count"⟩, .concrete ⟨[.property ⟨"value", .integer, false⟩]⟩),
    (⟨"form", "entry"⟩, .oneOf [⟨"form", "count"⟩, ⟨"form", "label"⟩]),
    (⟨"form", "label"⟩, .concrete ⟨[.property ⟨"value", .text, false⟩]⟩)]
  root := none

/-- An entry whose value is not a number. -/
def entry : Description := ⟨"form", "entry", some [("value", "ten")], none⟩

/-- As a label the entry is without faults. -/
theorem inspectAt_label : ((ofDescription entry).retypeRoot ⟨"form", "label"⟩).inspectAt form .root =
    .ok ⟨[], [.inspectedSubtree 0 0]⟩ := by
  have hclean : (entry.toNode.retyped ⟨"form", "label"⟩).faults form .root = [] := by decide +kernel
  rw [inspectAt_root (root_retypeRoot rfl _), hclean]
  rfl

/-- By its names the entry suits a count, and so it has the report of a count. -/
theorem inspectAt_entry :
    ((ofDescription entry).retypeRoot ⟨"form", "label"⟩).inspectAt form .root =
      .ok ⟨[], [.inspectedSubtree 0 0]⟩ ∧
    (ofDescription entry).inspectAt form .root =
      ((ofDescription entry).retypeRoot ⟨"form", "count"⟩).inspectAt form .root := by
  have halternative : form.get? entry.toNode.name =
      some (.oneOf [⟨"form", "count"⟩, ⟨"form", "label"⟩]) := rfl
  obtain ⟨a, hfirst, hsame, -⟩ := inspectAt_of_member (t := ofDescription entry) rfl halternative
    (by decide +kernel) inspectAt_label rfl
  have hcount : (form.standsFor ⟨"form", "entry"⟩).find? (form.suits entry.toNode) =
      some ⟨"form", "count"⟩ := by decide +kernel
  cases Option.some.inj (hfirst.symm.trans hcount)
  exact ⟨inspectAt_label, hsame⟩

/-- A label is an entry, and is refused for one. -/
theorem not_inspectAt_clean_of_member : ¬ ∀ (ds : List GrammarSpec) (g : Grammar) (t : Tree)
    (n : Node) (members : List TypeName) (m : TypeName), (Grammar.combine ds).value = .ok g →
      t.root = some n → g.get? n.name = some (.oneOf members) → m ∈ g.standsFor n.name →
      (∃ report, (t.retypeRoot m).inspectAt g .root = .ok report ∧ report.value = []) →
      ∃ report, t.inspectAt g .root = .ok report ∧ report.value = [] := by
  intro h
  obtain ⟨report, hreport, hclean⟩ := h [formSpec] form (ofDescription entry) _
    [⟨"form", "count"⟩, ⟨"form", "label"⟩] ⟨"form", "label"⟩ rfl rfl rfl (by decide +kernel)
    ⟨_, inspectAt_label, rfl⟩
  rw [inspectAt_root rfl, Except.ok.injEq] at hreport
  subst hreport
  exact absurd hclean (by decide +kernel)

end Tree
end BlockEdit
