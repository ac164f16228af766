/-
Putting the chosen members in the place of alternative types. All nodes of
alternative types, however deep, get the name of the member that they are
taken for (`Node.resolved`). In a valid tree there is one for each of them,
and the tree stays valid (`Tree.isValid_resolved`).

A node keeps its shape, because the name it gets is the name of that shape. A
parent has admitted the alternative type and so admits what that covers, and
the root's type is taken for the same reason. The induction is on the rules
that the node conforms by.
-/
import BlockEdit.Proofs.Grammar.MemberChoice
import BlockEdit.Proofs.Inspection.Conformance

namespace BlockEdit

namespace Node

variable {g : Grammar} {n m : Node}

/-- The node with the name of its shape, here and below. -/
def resolved (g : Grammar) : Node → Node :=
  fold fun n groups => ⟨g.resolvedName n, n.properties, groups.map fun e => (e.1, e.2.map (·.2))⟩

theorem resolved_eq (g : Grammar) (n : Node) : n.resolved g =
    ⟨g.resolvedName n, n.properties, n.groups.map fun e => (e.1, e.2.map (·.resolved g))⟩ := by
  rw [resolved, fold_eq]
  simp [Function.comp_def]

theorem name_resolved (g : Grammar) (n : Node) : (n.resolved g).name = g.resolvedName n := by
  rw [resolved_eq]

theorem properties_resolved (g : Grammar) (n : Node) :
    (n.resolved g).properties = n.properties := by
  rw [resolved_eq]

theorem property?_resolved (g : Grammar) (n : Node) (key : String) :
    (n.resolved g).property? key = n.property? key := by
  rw [property?, properties_resolved, property?]

theorem keys_groups_resolved (g : Grammar) (n : Node) :
    Entries.keys (n.resolved g).groups = Entries.keys n.groups := by
  rw [resolved_eq]
  simp [Entries.keys]

theorem childrenOf_resolved (g : Grammar) (n : Node) (group : String) :
    (n.resolved g).childrenOf group = (n.childrenOf group).map (·.resolved g) := by
  rw [resolved_eq, childrenOf]
  dsimp only
  rw [Entries.get?_map, childrenOf]
  cases Entries.get? n.groups group <;> rfl

theorem child?_resolved (g : Grammar) (n : Node) (s : Step) :
    (n.resolved g).child? s = (n.child? s).map (·.resolved g) := by
  rw [child?, childrenOf_resolved, List.getElem?_map, child?]

theorem at?_resolved (g : Grammar) (n : Node) (path : List Step) :
    (n.resolved g).at? path = (n.at? path).map (·.resolved g) := by
  induction path generalizing n with
  | nil => rfl
  | cons s path ih =>
    rw [at?, at?, child?_resolved]
    cases n.child? s with
    | none => rfl
    | some c => exact ih c

theorem WellFormed.resolved (h : n.WellFormed) : (n.resolved g).WellFormed := by
  induction h with
  | @intro n hproperties hgroups _ ih =>
    refine .intro ?_ ?_ ?_
    · rw [properties_resolved]
      exact hproperties
    · rw [Entries.Distinct, keys_groups_resolved]
      exact hgroups
    · rw [resolved_eq]
      intro e he c hc
      obtain ⟨e', he', rfl⟩ := List.mem_map.1 he
      obtain ⟨c', hc', rfl⟩ := List.mem_map.1 hc
      exact ih e' he' c' hc'

end Node

namespace Grammar

variable {g : Grammar} {n : Node} {c : Shape}

/-- The resolved node has a type of its own for a shape. -/
theorem shapeOf?_resolved (h : g.shapeOf? n = some c) : g.shapeOf? (n.resolved g) = some c := by
  apply shapeOf?_of_concrete
  rw [Node.name_resolved]
  exact (resolvedName_of_shapeOf? h).1

theorem covers_name_resolved (h : g.shapeOf? n = some c) :
    g.covers n.name (n.resolved g).name = true := by
  rw [Node.name_resolved]
  exact (resolvedName_of_shapeOf? h).2

theorem Conforms.exists_shapeOf? (h : g.Conforms n) : ∃ c, g.shapeOf? n = some c := by
  obtain ⟨hshape, -⟩ := h
  exact ⟨_, hshape⟩

theorem Conforms.resolved (h : g.Conforms n) : g.Conforms (n.resolved g) := by
  induction h with
  | @intro n c hshape hpresent hliterals hproperties hcounts hadmitted hnested hgroups ih =>
    refine .intro (shapeOf?_resolved hshape) ?_ ?_ ?_ ?_ ?_ ?_ ?_
    · simpa only [Node.property?_resolved] using hpresent
    · simpa only [Node.property?_resolved] using hliterals
    · rwa [Node.properties_resolved]
    · simpa only [Node.childrenOf_resolved, List.length_map] using hcounts
    · intro group hgroup child' hchild'
      rw [Node.childrenOf_resolved] at hchild'
      obtain ⟨child, hchild, rfl⟩ := List.mem_map.1 hchild'
      obtain ⟨c', hc'⟩ := (hnested group hgroup child hchild).exists_shapeOf?
      exact admits_of_covers (hadmitted group hgroup child hchild) (covers_name_resolved hc')
    · intro group hgroup child' hchild'
      rw [Node.childrenOf_resolved] at hchild'
      obtain ⟨child, hchild, rfl⟩ := List.mem_map.1 hchild'
      exact ih group hgroup child hchild
    · rwa [Node.keys_groups_resolved]

end Grammar

namespace Tree

variable {t : Tree} {g : Grammar}

/-- The tree with all nodes under the names of their shapes. -/
def resolved (t : Tree) (g : Grammar) : Tree where
  root := t.root.map (·.resolved g)
  wellFormed n hn := by
    obtain ⟨root, hr, rfl⟩ := Option.map_eq_some_iff.1 hn
    exact (t.wellFormed root hr).resolved

theorem nodeAt?_resolved (t : Tree) (g : Grammar) (l : Location) :
    (t.resolved g).nodeAt? l = (t.nodeAt? l).map (·.resolved g) := by
  show (t.root.map (·.resolved g)).bind (·.at? l.steps) = _
  rw [nodeAt?]
  cases t.root with
  | none => rfl
  | some root => exact Node.at?_resolved g root l.steps

/-- **Resolved alternatives.** Let all nodes of alternative types in a valid tree have the name
of the member that is chosen for them, all at once. The tree is valid then as well. Every node is
where it was and has the shape that it had; a new name is the name of that shape. -/
theorem isValid_resolved (h : t.isValid g = true) : (t.resolved g).isValid g = true ∧
    ∀ l n, t.nodeAt? l = some n → ∃ m c, (t.resolved g).nodeAt? l = some m ∧
      g.shapeOf? n = some c ∧ g.shapeOf? m = some c ∧
      m.properties = n.properties ∧ Entries.keys m.groups = Entries.keys n.groups ∧
      (∀ c', g.get? n.name = some (.concrete c') → m.name = n.name) ∧
      ∀ members, g.get? n.name = some (.oneOf members) →
        g.memberFor? n = some m.name ∧ g.get? m.name = some (.concrete c) := by
  constructor
  · rw [isValid_iff] at h ⊢
    intro root' hroot
    obtain ⟨root, hr, rfl⟩ := Option.map_eq_some_iff.1 hroot
    obtain ⟨hfaults, hconforms⟩ := h root hr
    obtain ⟨c, hc⟩ := hconforms.exists_shapeOf?
    rw [rootFaults_eq_nil_iff] at hfaults ⊢
    refine ⟨fun expected he => ?_, hconforms.resolved⟩
    exact Grammar.covers_trans (hfaults expected he) (Grammar.covers_name_resolved hc)
  · intro l n hn
    obtain ⟨c, hc⟩ := (conforms_of_nodeAt? h hn).exists_shapeOf?
    have hnode : (t.resolved g).nodeAt? l = some (n.resolved g) := by
      rw [nodeAt?_resolved, hn, Option.map_some]
    refine ⟨n.resolved g, c, hnode, hc, Grammar.shapeOf?_resolved hc, n.properties_resolved g,
      n.keys_groups_resolved g, fun c' hg => ?_, fun members hg => ?_⟩
    · rw [Node.name_resolved, Grammar.resolvedName_of_concrete hg]
    · rw [Node.name_resolved]
      exact Grammar.memberFor?_eq_resolvedName hg hc

/-- A term is a factor or a sum of terms, and a factor is a number or again a term. -/
def arithmetic : Grammar where
  types := [
    (⟨"sums", "factor"⟩, .oneOf [⟨"sums", "number"⟩, ⟨"sums", "term"⟩]),
    (⟨"sums", "number"⟩, .concrete ⟨[.property ⟨"value", .integer, false⟩]⟩),
    (⟨"sums", "sum"⟩, .concrete ⟨[.group ⟨"operands", .sequence, [⟨"sums", "term"⟩], ⟨2, none⟩⟩]⟩),
    (⟨"sums", "term"⟩, .oneOf [⟨"sums", "factor"⟩, ⟨"sums", "sum"⟩])]
  root := some ⟨"sums", "factor"⟩

/-- A sum of a factor and a term, itself under the name of a term. -/
def onePlusTwo : Description :=
  ⟨"sums", "term", none, some [("operands", [
    ⟨"sums", "factor", some [("value", "1")], none⟩,
    ⟨"sums", "term", some [("value", "2")], none⟩])]⟩

/-- The operands are numbers and the whole is a sum, each by the names of the grammar. -/
theorem isValid_resolved_onePlusTwo : (ofDescription onePlusTwo).isValid arithmetic = true ∧
    ((ofDescription onePlusTwo).resolved arithmetic).isValid arithmetic = true ∧
    ((ofDescription onePlusTwo).resolved arithmetic).root = some
      ⟨⟨"sums", "sum"⟩, [], [("operands", [⟨⟨"sums", "number"⟩, [("value", "1")], []⟩,
        ⟨⟨"sums", "number"⟩, [("value", "2")], []⟩])]⟩ := by
  have hvalid : (ofDescription onePlusTwo).isValid arithmetic = true := by decide +kernel
  exact ⟨hvalid, (isValid_resolved hvalid).1, by decide +kernel⟩

end Tree
end BlockEdit
