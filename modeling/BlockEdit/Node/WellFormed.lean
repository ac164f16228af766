/-
Well-formed nodes: at every node of a subtree no property key and no group
name occurs twice. `Tree` holds well-formed nodes only, so that a step names
at most one child and a key at most one value.

Everything that a node is built or changed with keeps it well-formed.
-/
import BlockEdit.Node

namespace BlockEdit.Node

inductive WellFormed : Node → Prop where
  | intro {n : Node} (properties : Entries.Distinct n.properties)
      (groups : Entries.Distinct n.groups)
      (children : ∀ g ∈ n.groups, ∀ c ∈ g.2, WellFormed c) : WellFormed n

namespace WellFormed

variable {n : Node}

theorem properties : n.WellFormed → Entries.Distinct n.properties
  | intro h _ _ => h

theorem groups : n.WellFormed → Entries.Distinct n.groups
  | intro _ h _ => h

theorem children : n.WellFormed → ∀ g ∈ n.groups, ∀ c ∈ g.2, c.WellFormed
  | intro _ _ h => h

theorem childrenOf (h : n.WellFormed) {group : String} {c : Node} (hc : c ∈ n.childrenOf group) :
    c.WellFormed := by
  obtain ⟨cs, hcs, hc⟩ := exists_mem_groups_of_mem_childrenOf hc
  exact h.children _ hcs c hc

theorem child? (h : n.WellFormed) {s : Step} {c : Node} (hc : n.child? s = some c) :
    c.WellFormed :=
  h.childrenOf (List.mem_of_getElem? hc)

theorem leaf (name : TypeName) : (Node.leaf name).WellFormed :=
  intro Entries.distinct_nil Entries.distinct_nil nofun

theorem putProperty (h : n.WellFormed) (key value : String) :
    (n.putProperty key value).WellFormed :=
  intro (Entries.distinct_put h.properties ..) h.groups h.children

theorem setGroup (h : n.WellFormed) (group : String) {children : List Node}
    (hc : ∀ c ∈ children, c.WellFormed) : (n.setGroup group children).WellFormed := by
  refine intro h.properties (Entries.distinct_put h.groups ..) fun g hg => ?_
  rcases Entries.mem_put hg with rfl | hg
  · exact hc
  · exact h.children g hg

theorem appendChild (h : n.WellFormed) (group : String) {c : Node} (hc : c.WellFormed) :
    (n.appendChild group c).WellFormed := by
  refine h.setGroup group fun d hd => ?_
  rcases List.mem_append.1 hd with hd | hd
  · exact h.childrenOf hd
  · exact List.mem_singleton.1 hd ▸ hc

theorem ensureGroup (h : n.WellFormed) (group : String) : (n.ensureGroup group).WellFormed :=
  h.setGroup group fun _ hd => h.childrenOf hd

end WellFormed

/-! ## Deciding it -/

def isWellFormed : Node → Bool :=
  fold fun n groups =>
    decide (Entries.Distinct n.properties) && decide (Entries.Distinct n.groups) &&
      groups.all fun g => g.2.all (·.2)

theorem isWellFormed_iff (n : Node) : n.isWellFormed = true ↔ n.WellFormed := by
  induction n using induct with
  | step n ih =>
    rw [isWellFormed, fold_eq, ← isWellFormed]
    simp only [Bool.and_eq_true, decide_eq_true_eq, List.all_map, List.all_eq_true,
      Function.comp_apply]
    constructor
    · rintro ⟨⟨hp, hg⟩, hc⟩
      exact .intro hp hg fun g hg c hcg => (ih g hg c hcg).1 (hc g hg c hcg)
    · intro h
      exact ⟨⟨h.properties, h.groups⟩, fun g hg c hcg => (ih g hg c hcg).2 (h.children g hg c hcg)⟩

instance (n : Node) : Decidable n.WellFormed := decidable_of_iff _ (isWellFormed_iff n)

end BlockEdit.Node
