/-
Descriptions and the nodes they describe. A map has no order, so the node
made of a description (`toNode`) has its properties and groups in ascending
order of their names, and describing a node (`Node.describe`) forgets the
order they came in.

`Node.sorted` is that order at every level of a node, and two nodes are the
`Same` when they sort to the same node: when they differ in order only.
-/
import BlockEdit.Description
import BlockEdit.Node.WellFormed

namespace BlockEdit

namespace Description

mutual
def toNode : Description → Node
  | ⟨language, name, properties, none⟩ =>
    ⟨⟨language, name⟩, Entries.sorted (properties.getD []), []⟩
  | ⟨language, name, properties, some groups⟩ =>
    ⟨⟨language, name⟩, Entries.sorted (properties.getD []), Entries.sorted (groupNodes groups)⟩

def groupNodes : List (String × List Description) → List (String × List Node)
  | [] => []
  | (group, children) :: groups => (group, childNodes children) :: groupNodes groups

def childNodes : List Description → List Node
  | [] => []
  | child :: children => child.toNode :: childNodes children
end

theorem childNodes_eq : ∀ cs, childNodes cs = cs.map toNode
  | [] => rfl
  | c :: cs => by rw [childNodes, childNodes_eq cs, List.map_cons]

theorem groupNodes_eq : ∀ gs, groupNodes gs = gs.map fun g => (g.1, g.2.map toNode)
  | [] => rfl
  | (group, cs) :: gs => by rw [groupNodes, groupNodes_eq gs, childNodes_eq, List.map_cons]

theorem toNode_eq (d : Description) :
    d.toNode = ⟨d.typeName, Entries.sorted (d.properties.getD []),
      Entries.sorted ((d.children.getD []).map fun g => (g.1, g.2.map toNode))⟩ := by
  obtain ⟨language, name, properties, children⟩ := d
  cases children with
  | none => rfl
  | some groups => rw [toNode, groupNodes_eq]; rfl

theorem name_toNode (d : Description) : d.toNode.name = d.typeName := by
  rw [toNode_eq]

/-- What is made of a description is well-formed, whatever its maps hold. -/
theorem wellFormed_toNode (d : Description) : d.toNode.WellFormed := by
  induction d using induct with
  | step d ih =>
    rw [toNode_eq]
    refine .intro (Entries.distinct_sorted _) (Entries.distinct_sorted _) fun g hg c hc => ?_
    obtain ⟨g', hg', rfl⟩ := List.mem_map.1 (Entries.mem_of_mem_sorted hg)
    obtain ⟨c', hc', rfl⟩ := List.mem_map.1 hc
    exact ih g' hg' c' hc'

end Description

namespace Node

/-- An empty map, or none at all, is described as absent. -/
def describe : Node → Description :=
  fold fun n groups =>
    ⟨n.name.language, n.name.name,
      if n.properties.isEmpty then none else some (Entries.sorted n.properties),
      if groups.isEmpty then none
      else some (Entries.sorted (groups.map fun g => (g.1, g.2.map (·.2))))⟩

/-- The node with properties and groups in ascending order, at every level. -/
def sorted : Node → Node :=
  fold fun n groups =>
    ⟨n.name, Entries.sorted n.properties,
      Entries.sorted (groups.map fun g => (g.1, g.2.map (·.2)))⟩

/-- The two nodes differ at most in the order of properties and groups, here and below. -/
def Same (m n : Node) : Prop := m.sorted = n.sorted

instance (m n : Node) : Decidable (m.Same n) := inferInstanceAs (Decidable (m.sorted = n.sorted))

end Node
end BlockEdit
