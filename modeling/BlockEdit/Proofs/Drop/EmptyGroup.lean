/-
A group that the shape of its node declares may be absent or empty: it is all
the same. A node that gets the group empty keeps its shape, and it has the
same children as before, so the same is reported of it
(`Node.faults_ensureGroup`). What is asked about a slot goes by the shape of
a node and the number of its children, and no node has changed in either
(`Tree.Resembles`).

A group that is not declared is another matter: it is reported, or the node
is taken for another shape.
-/
import BlockEdit.Proofs.Drop.Slot
import BlockEdit.Proofs.Inspection.Locality

namespace BlockEdit

/-! ## One node -/

namespace Node

variable {g : Grammar} {n : Node} {c : Shape} {group : String}

theorem childrenOf_ensureGroup (n : Node) (group other : String) :
    (n.ensureGroup group).childrenOf other = n.childrenOf other := by
  by_cases h : other = group
  · rw [h, ensureGroup, childrenOf_setGroup_self]
  · rw [ensureGroup, childrenOf_setGroup_of_ne _ _ h]

theorem at?_ensureGroup_cons (n : Node) (group : String) (s : Step) (path : List Step) :
    (n.ensureGroup group).at? (s :: path) = n.at? (s :: path) := by
  simp only [at?, child?, childrenOf_ensureGroup]

section
variable (hc : g.shapeOf? n = some c) (hd : (c.group? group).isSome = true)
include hc hd

theorem shapeOf?_ensureGroup : g.shapeOf? (n.ensureGroup group) = some c :=
  Grammar.shapeOf?_setGroup _ hc hd

/-- Of a node that gets a declared group the same is reported. -/
theorem faults_ensureGroup (l : Location) : (n.ensureGroup group).faults g l = n.faults g l := by
  have hgroups : groupFaults g l (n.ensureGroup group) = groupFaults g l n := by
    funext d
    simp only [groupFaults, childrenOf_ensureGroup]
  rw [faults_of_shapeOf? hc, faults_of_shapeOf? (shapeOf?_ensureGroup hc hd), hgroups]
  -- what is left are the groups that are not declared, and this one is
  refine congrArg _ ?_
  rw [ensureGroup, setGroup]
  exact Entries.flatMap_put (fun _ => if_pos hd) _ _

end

/-- A node of which the same is reported may stand in the place of another of its type. -/
theorem faults_putAt {path : List Step} {m new : Node} (h : n.at? path = some m)
    (hname : new.name = m.name) (hfaults : ∀ l, new.faults g l = m.faults g l) (l : Location) :
    (n.putAt path new).faults g l = n.faults g l := by
  induction path generalizing n l with
  | nil =>
    cases h
    exact hfaults l
  | cons s path ih =>
    obtain ⟨child, hchild, hm⟩ := Option.bind_eq_some_iff.1 h
    have hname' : (child.putAt path new).name = child.name := name_putAt hm fun _ => hname
    have hsame : ((n.setChild s (child.putAt path new)).faults g l).filter (fun _ => true) =
        (n.faults g l).filter fun _ => true :=
      filter_faults_setChild hchild hname' (by rw [ih hm])
    rw [List.filter_true, List.filter_true] at hsame
    rw [putAt, hchild]
    exact hsame

end Node

/-! ## Nodes that answer alike -/

namespace Grammar

variable {g : Grammar} {m n : Node}

theorem resembles_of_frame_eq (h : m.frame = n.frame) : g.Resembles m n where
  shapeOf? := Node.shapeOf?_of_frame_eq h
  length_childrenOf := Node.length_childrenOf_of_frame_eq h

theorem resembles_ensureGroup {c : Shape} {group : String} (hc : g.shapeOf? n = some c)
    (hd : (c.group? group).isSome = true) : g.Resembles (n.ensureGroup group) n where
  shapeOf? := by rw [Node.shapeOf?_ensureGroup hc hd, hc]
  length_childrenOf other := by rw [Node.childrenOf_ensureGroup]

end Grammar

namespace Tree

variable {t t' : Tree} {g : Grammar} {k l : Location} {n m : Node} {c : Shape} {group : String}

theorem resembles_of_map_frame_eq
    (h : (t'.nodeAt? k).map Node.frame = (t.nodeAt? k).map Node.frame) :
    (t'.nodeAt? k = none ∧ t.nodeAt? k = none) ∨
      ∃ m n, t'.nodeAt? k = some m ∧ t.nodeAt? k = some n ∧ g.Resembles m n := by
  cases hn : t.nodeAt? k with
  | none => simpa [hn] using h
  | some n =>
    rw [hn, Option.map_some] at h
    obtain ⟨m, hm, hframe⟩ := Option.map_eq_some_iff.1 h
    exact .inr ⟨m, n, hm, rfl, Grammar.resembles_of_frame_eq hframe⟩

/-- If a node resembles the one it replaces, and has the same nodes below it, the trees do. -/
theorem resembles_of_putAt (hn : t.nodeAt? l = some n)
    (hroot : t'.root = t.root.map (·.putAt l.steps m)) (hm : g.Resembles m n)
    (hbelow : ∀ s path, m.at? (s :: path) = n.at? (s :: path)) : Resembles g t' t := by
  intro k
  by_cases hk : k = l
  · subst hk
    exact .inr ⟨m, n, nodeAt?_self_of_putAt hroot hn, hn, hm⟩
  · exact resembles_of_map_frame_eq (map_frame_of_putAt hn hroot hbelow hk)

/-! ## The whole tree -/

theorem faults_of_putAt (hn : t.nodeAt? l = some n)
    (hroot : t'.root = t.root.map (·.putAt l.steps m)) (hname : m.name = n.name)
    (hfaults : ∀ l, m.faults g l = n.faults g l) : t'.faults g = t.faults g := by
  obtain ⟨root, hr, hat⟩ := nodeAt?_eq_some_iff.1 hn
  have hroot' : rootFaults g (root.putAt l.steps m) = rootFaults g root := by
    rw [rootFaults, rootFaults, Node.name_putAt hat fun _ => hname]
  rw [faults, faults, hroot, hr, Option.map_some]
  dsimp only
  rw [hroot', Node.faults_putAt hat hname hfaults]

/-- **An absent group and an empty one are the same**, if the shape of the node declares the
group. It can be added, and then the inspection of the whole tree has the very same report, and
each slot in the tree is empty, is short of children and takes a cargo just when it did before. -/
theorem addGroup_of_declared (hn : t.nodeAt? l = some n) (hc : g.shapeOf? n = some c)
    (hd : ∃ d ∈ c.groups, d.name = group) :
    ∃ t', t.addGroup l group = .ok t' ∧ t'.inspect g = t.inspect g ∧
      ∀ k, t'.slotIsEmpty k = t.slotIsEmpty k ∧ t'.slotIsShort g k = t.slotIsShort g k ∧
        ∀ cargo, t'.slotTakes g k cargo = t.slotTakes g k cargo := by
  have hgroup : (c.group? group).isSome = true := Shape.group?_isSome_iff.2 hd
  have wf : (n.ensureGroup group).WellFormed := (wellFormed_of_nodeAt? hn).ensureGroup group
  have hadd : t.addGroup l group = .ok (t.putAt l (n.ensureGroup group) wf) :=
    addGroup_eq_ok_iff.2 ⟨n, hn, rfl⟩
  have hfaults : (t.putAt l (n.ensureGroup group) wf).faults g = t.faults g :=
    faults_of_putAt hn rfl rfl (Node.faults_ensureGroup hc hgroup)
  have halike : Resembles g (t.putAt l (n.ensureGroup group) wf) t :=
    resembles_of_putAt hn rfl (Grammar.resembles_ensureGroup hc hgroup)
      (Node.at?_ensureGroup_cons n group)
  refine ⟨_, hadd, ?_, fun k => ⟨halike.slotIsEmpty_eq k, halike.slotIsShort_eq k, fun cargo => ?_⟩⟩
  · rw [inspect, inspect, hfaults]
  · exact halike.slotTakes_eq k cargo

/-- An entry of a diary is a plan, which has steps, or a remark. Both have a title. -/
def diaryGrammar : Grammar where
  types := [
    (⟨"diary", "entry"⟩, .oneOf [⟨"diary", "plan"⟩, ⟨"diary", "remark"⟩]),
    (⟨"diary", "plan"⟩, .concrete plan),
    (⟨"diary", "remark"⟩, .concrete ⟨[title]⟩)]
  root := none
where
  title : Attribute := .property ⟨"title", .text, false⟩
  plan : Shape := ⟨[title, .group ⟨"steps", .sequence, [⟨"diary", "entry"⟩], ⟨1, none⟩⟩]⟩

/-- An entry without a title goes for a plan, for lack of a better one. With steps it can be
nothing else, and it is wanting the same: a title, and a step. -/
theorem addGroup_of_declared_steps :
    diaryGrammar.shapeOf? (.leaf ⟨"diary", "entry"⟩) = some diaryGrammar.plan ∧
    ∃ t', (ofDescription ⟨"diary", "entry", none, none⟩).addGroup .root "steps" = .ok t' ∧
      (t'.inspect diaryGrammar).value =
        [⟨.root, .propertyMissing "title"⟩, ⟨.root, .groupShort "steps" 1⟩] ∧
      t'.slotIsShort diaryGrammar (Location.root.child "steps" 0) = true := by
  have hroot : (ofDescription ⟨"diary", "entry", none, none⟩).nodeAt? .root =
      some (.leaf ⟨"diary", "entry"⟩) := rfl
  have hplan : diaryGrammar.shapeOf? (.leaf ⟨"diary", "entry"⟩) = some diaryGrammar.plan := by
    decide +kernel
  have hsteps : ∃ d ∈ diaryGrammar.plan.groups, d.name = "steps" :=
    ⟨_, List.mem_singleton_self _, rfl⟩
  obtain ⟨t', hadd, hreport, hslots⟩ := addGroup_of_declared hroot hplan hsteps
  refine ⟨hplan, t', hadd, ?_, ?_⟩
  · rw [hreport]
    decide +kernel
  · rw [(hslots (Location.root.child "steps" 0)).2.1]
    decide +kernel

end Tree
end BlockEdit
