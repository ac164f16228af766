/-
Inspection is local. What is reported of a node that lies apart from a
location does not depend on what the subtree there is like, but only on the
type of its top node: a group admits a child by its type, and a node goes by
its own properties and the names of its groups when a shape is found for it.

So an edit within a location leaves the rest of the report as it is, in its
order (`Tree.apart_inspect_of_within`). The induction is on the path to the
location, and one step of it says that a child may be put in the place of
another if the two have the same type and differ only in faults that are not
looked at (`Node.filter_faults_setChild`).
-/
import BlockEdit.Proofs.Inspection.Relocation
import BlockEdit.Proofs.Tree.Edits

namespace BlockEdit

/-- The faults reported outside of the subtree at the location. -/
def Fault.apart (fs : List Fault) (l : Location) : List Fault :=
  fs.filter fun f => !l.contains f.location

section
variable {α β κ : Type}

/-- An item of which the same comes as of another may stand in its place. -/
theorem flatMap_zipIdx_set {as : List α} {i : Nat} {a b : α} {f : α × Nat → List β}
    (ha : as[i]? = some a) (hf : f (b, i) = f (a, i)) :
    (as.set i b).zipIdx.flatMap f = as.zipIdx.flatMap f := by
  rw [List.flatMap_def, List.flatMap_def]
  refine congrArg List.flatten (List.ext_getElem? fun j => ?_)
  simp only [List.getElem?_map, List.getElem?_zipIdx, Nat.zero_add]
  by_cases hj : i = j
  · subst hj
    obtain ⟨hlt, -⟩ := List.getElem?_eq_some_iff.1 ha
    simp [List.getElem?_set_self hlt, ha, hf]
  · rw [List.getElem?_set_ne hj]

theorem Entries.flatMap_put_of_eq [DecidableEq κ] {es : Entries κ α} {k : κ} {a b : α}
    {f : κ × α → List β} (ha : es.get? k = some a) (hf : f (k, b) = f (k, a)) :
    (es.put k b).flatMap f = es.flatMap f := by
  induction es with
  | nil => simp [get?] at ha
  | cons e es ih =>
    obtain ⟨k', a'⟩ := e
    by_cases hk : k' = k
    · subst hk
      simp only [get?, if_true, Option.some.injEq] at ha
      simp [put, hf, ha]
    · simp only [get?, hk, if_false] at ha
      simp [put, hk, ih ha]

end

namespace Node

variable {g : Grammar} {n c d : Node} {s : Step} {l : Location} {p : Fault → Bool}

theorem shapeOf?_of_frame_eq {m : Node} (h : m.frame = n.frame) : g.shapeOf? m = g.shapeOf? n := by
  refine Grammar.shapeOf?_congr (name_of_frame_eq h) (fun key => ?_) (fun group => ?_)
  · rw [property?, properties_of_frame_eq h, property?]
  · rw [Bool.eq_iff_iff, hasGroup, hasGroup, Entries.has_iff, Entries.has_iff,
      keys_groups_of_frame_eq h]

/-! ## One child in the place of another -/

section
variable (hc : n.child? s = some c) (hname : d.name = c.name)
  (hd : (d.faults g (l.child s.group s.index)).filter p =
    (c.faults g (l.child s.group s.index)).filter p)
include hc hname hd

theorem filter_groupFaults_setChild (group : GroupDecl) :
    (groupFaults g l (n.setChild s d) group).filter p = (groupFaults g l n group).filter p := by
  unfold groupFaults
  rw [length_childrenOf_of_frame_eq (frame_setChild hc d), List.filter_append, List.filter_append,
    List.filter_flatMap, List.filter_flatMap]
  congr 1
  by_cases hgroup : group.name = s.group
  · rw [hgroup, setChild, childrenOf_setGroup_self]
    refine flatMap_zipIdx_set hc ?_
    dsimp only
    unfold faultsIn
    rw [hname]
    split
    · exact hd
    · rfl
  · rw [setChild, childrenOf_setGroup_of_ne _ _ hgroup]

omit hname in
theorem filter_strayFaults_setChild :
    (strayFaults g l s.group ((n.childrenOf s.group).set s.index d)).filter p =
      (strayFaults g l s.group (n.childrenOf s.group)).filter p := by
  unfold strayFaults
  rw [List.filter_cons, List.filter_cons, List.filter_flatMap, List.filter_flatMap,
    flatMap_zipIdx_set hc hd]

/-- Of a node with another child of the same type nothing else is reported, if nothing else is
reported of the child. -/
theorem filter_faults_setChild :
    ((n.setChild s d).faults g l).filter p = (n.faults g l).filter p := by
  have hframe := frame_setChild hc d
  have hname' := name_of_frame_eq hframe
  have hshape := shapeOf?_of_frame_eq (g := g) hframe
  cases hdef : g.defines n.name with
  | false => rw [faults_of_undefined hdef, faults_of_undefined (hname'.symm ▸ hdef), hname']
  | true =>
  cases hs : g.shapeOf? n with
  | none =>
    rw [faults_of_shapeOf?_eq_none hdef hs,
      faults_of_shapeOf?_eq_none (hname'.symm ▸ hdef) (hshape.trans hs), hname']
  | some type =>
    rw [faults_of_shapeOf? hs, faults_of_shapeOf? (hshape.trans hs)]
    simp only [List.filter_append, List.filter_flatMap, filter_groupFaults_setChild hc hname hd]
    congr 1
    have hgroup := get?_groups_of_hasGroup (hasGroup_of_child? hc)
    refine Entries.flatMap_put_of_eq hgroup ?_
    dsimp only
    split
    · rfl
    · exact filter_strayFaults_setChild hc hd

end

/-! ## Another node at the end of a path -/

/-- Apart from where the node is put the report stays as it is. -/
theorem apart_faults_putAt {path : List Step} {m new : Node} (h : n.at? path = some m)
    (hname : new.name = m.name) (l : Location) :
    Fault.apart ((n.putAt path new).faults g l) (l.along path) =
      Fault.apart (n.faults g l) (l.along path) := by
  -- the induction is on the way down; at its end all that is reported lies within the location
  induction path generalizing n l with
  | nil =>
    have hwithin : ∀ n : Node, Fault.apart (n.faults g l) l = [] := by
      intro n
      refine List.filter_eq_nil_iff.2 fun f hf => ?_
      rw [contains_of_mem_faults hf]
      exact Bool.false_ne_true
    rw [Location.along_nil, hwithin, hwithin]
  | cons s path ih =>
    obtain ⟨c, hc, hm⟩ := Option.bind_eq_some_iff.1 h
    have hname' : (c.putAt path new).name = c.name := name_putAt hm fun _ => hname
    rw [putAt, hc, ← Location.along_child]
    exact filter_faults_setChild hc hname' (ih hm _)

end Node

namespace Tree

variable {t t' : Tree} {l : Location} (g : Grammar)

theorem apart_faults_of_changedAt (h : t.ChangedAt l t') :
    Fault.apart (t'.faults g) l = Fault.apart (t.faults g) l := by
  obtain ⟨n, m, hn, hname, hroot⟩ := h
  obtain ⟨root, hr, hat⟩ := Option.bind_eq_some_iff.1 hn
  have hsame : (root.putAt l.steps m).name = root.name := Node.name_putAt hat fun _ => hname
  have hrootFaults : rootFaults g (root.putAt l.steps m) = rootFaults g root := by
    rw [rootFaults, rootFaults, hsame]
  have hfaults := Node.apart_faults_putAt (g := g) hat hname .root
  rw [faults, faults, hroot, hr, Option.map_some]
  dsimp only
  rw [hrootFaults, Fault.apart, Fault.apart, List.filter_append, List.filter_append]
  exact congrArg _ hfaults

/-- **Inspection is local.** An edit at work within the subtree at a location, which leaves the
node there in its type, changes nothing in what is reported outside of the subtree: these are
the same faults in the same order. The node itself may be taken for another shape by it. -/
theorem apart_inspect_of_within {e : Edit} (h : e.Within t l) (hrun : e.run t = .ok t') :
    Fault.apart (t'.inspect g).value l = Fault.apart (t.inspect g).value l :=
  apart_faults_of_changedAt g (h.changedAt hrun)

/-- A letter has parts, and each of them is a picture or else a text. -/
def letterGrammar : Grammar where
  types := [
    (⟨"mail", "letter"⟩, .concrete ⟨[.group ⟨"parts", .sequence, [⟨"mail", "part"⟩], .unbounded⟩]⟩),
    (⟨"mail", "part"⟩, .oneOf [⟨"mail", "picture"⟩, ⟨"mail", "text"⟩]),
    (⟨"mail", "picture"⟩, .concrete ⟨[.property ⟨"source", .text, false⟩]⟩),
    (⟨"mail", "text"⟩, .concrete ⟨[.property ⟨"body", .text, false⟩]⟩)]
  root := none

/-- A letter of a color, which letters do not have, with a part that is not filled in. -/
def letter : Description :=
  ⟨"mail", "letter", some [("color", "blue")],
    some [("parts", [⟨"mail", "part", none, none⟩])]⟩

/-- With a body the part is no longer taken for a picture but for a text. What is reported of the
letter does not change. -/
theorem apart_inspect_of_letter :
    (Edit.putProperty (Location.root.child "parts" 0) "body" "hello").Within (ofDescription letter)
      (Location.root.child "parts" 0) ∧
    ∃ t', (Edit.putProperty (Location.root.child "parts" 0) "body" "hello").run
        (ofDescription letter) = .ok t' ∧
      Fault.apart (t'.inspect letterGrammar).value (Location.root.child "parts" 0) =
        [⟨.root, .propertyUndeclared "color"⟩] := by
  have hwithin : (Edit.putProperty (Location.root.child "parts" 0) "body" "hello").Within
      (ofDescription letter) (Location.root.child "parts" 0) := .putProperty rfl
  obtain ⟨t', hrun⟩ : ∃ t', (Edit.putProperty (Location.root.child "parts" 0) "body" "hello").run
      (ofDescription letter) = .ok t' := ⟨_, rfl⟩
  refine ⟨hwithin, t', hrun, (apart_inspect_of_within letterGrammar hwithin hrun).trans ?_⟩
  decide +kernel

end Tree
end BlockEdit
