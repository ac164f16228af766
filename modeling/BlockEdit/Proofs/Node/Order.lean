/-
Nodes that are the same but for the order of properties and groups. What is
read off such nodes by name is the same, and the children are the same one
by one (`Node.same_iff`): the order within a group does count.

A change of one part of a node, made in two nodes that are the same, gives
two nodes that are the same again. For the entries this is a matter of what
is read back, since sorted entries are determined by that
(`Entries.sorted_eq_sorted_iff`).
-/
import BlockEdit.Proofs.Description.RoundTrip
import BlockEdit.Proofs.Node.Frame
import BlockEdit.Tree.Edit
import Mathlib.Data.List.InsertIdx
import Mathlib.Data.List.Nodup

namespace BlockEdit

/-! ## Entries in any order -/

namespace Entries

variable {κ α β : Type}

variable [DecidableEq κ]

theorem get?_put (es : Entries κ α) (k k' : κ) (a : α) :
    (es.put k a).get? k' = if k' = k then some a else es.get? k' := by
  split
  · next h => rw [h, get?_put_self]
  · next h => exact get?_put_of_ne es a h

theorem get?_remove (es : Entries κ α) (k k' : κ) :
    (es.remove k).get? k' = if k' = k then none else es.get? k' := by
  induction es with
  | nil => simp [remove, get?]
  | cons e es ih =>
    obtain ⟨k'', a⟩ := e
    rw [remove_cons]
    by_cases hk : k'' = k
    · subst hk
      rw [if_pos rfl, ih, get?]
      by_cases hk' : k' = k''
      · rw [if_pos hk', if_pos hk']
      · rw [if_neg hk', if_neg hk', if_neg (Ne.symm hk')]
    · rw [if_neg hk, get?, get?, ih]
      by_cases hk' : k'' = k'
      · subst hk'
        rw [if_pos rfl, if_pos rfl, if_neg hk]
      · rw [if_neg hk', if_neg hk']

theorem mem_rename_iff {es : Entries κ α} {old new k : κ} {a : α} :
    (k, a) ∈ es.rename old new ↔
      (k = new ∧ (old, a) ∈ es) ∨ (k ≠ new ∧ k ≠ old ∧ (k, a) ∈ es) := by
  simp only [rename, List.mem_map, List.mem_filter, decide_eq_true_eq, Prod.mk.injEq]
  constructor
  · rintro ⟨⟨k', a'⟩, ⟨hmem, hkept⟩, hk, rfl⟩
    by_cases hold : k' = old
    · rw [if_pos hold] at hk
      exact .inl ⟨hk.symm, hold ▸ hmem⟩
    · rw [if_neg hold] at hk
      subst hk
      exact .inr ⟨fun h => hold (h.trans (hkept.resolve_left (not_not_intro h)).symm), hold, hmem⟩
  · rintro (⟨rfl, hmem⟩ | ⟨hnew, hold, hmem⟩)
    · exact ⟨(old, a), ⟨hmem, ne_or_eq old k⟩, if_pos rfl, rfl⟩
    · exact ⟨(k, a), ⟨hmem, .inl hnew⟩, if_neg hold, rfl⟩

/-- Under the new name stands what stood under the old one, and under the old one nothing. -/
theorem get?_rename {es : Entries κ α} (h : es.Distinct) (old new k : κ) :
    (es.rename old new).get? k =
      if k = new then es.get? old else if k = old then none else es.get? k := by
  refine Option.ext fun a => ?_
  rw [get?_eq_some_iff_mem (distinct_rename h old new), mem_rename_iff,
    ← get?_eq_some_iff_mem h, ← get?_eq_some_iff_mem h]
  by_cases hnew : k = new
  · simp [hnew]
  · by_cases hold : k = old
    · simp [hold]
    · simp [hnew, hold]

variable [Ord κ] [Std.TransOrd κ] [Std.LawfulEqOrd κ] {es fs : Entries κ α}

/-- Two lists of entries differ in order at most when they read the same. -/
theorem sorted_eq_sorted_iff (hes : es.Distinct) (hfs : fs.Distinct) :
    es.sorted = fs.sorted ↔ ∀ k, es.get? k = fs.get? k := by
  constructor
  · intro h k
    rw [← get?_sorted hes, h, get?_sorted hfs]
  · intro h
    refine (ascending_sorted es).ext (ascending_sorted fs) fun k => ?_
    rw [get?_sorted hes, get?_sorted hfs, h k]

theorem sorted_perm (h : es.Distinct) : es.sorted.Perm es := by
  have hnodup : ∀ {es : Entries κ α}, es.Distinct → es.Nodup := List.Nodup.of_map _
  refine (List.perm_ext_iff_of_nodup (hnodup (distinct_sorted es)) (hnodup h)).2 ?_
  rintro ⟨k, a⟩
  rw [← get?_eq_some_iff_mem (distinct_sorted es), get?_sorted h, get?_eq_some_iff_mem h]

section
variable (hes : es.Distinct) (hfs : fs.Distinct) (h : es.sorted = fs.sorted)
include hes hfs h

theorem sorted_put_congr (k : κ) (a : α) : (es.put k a).sorted = (fs.put k a).sorted := by
  refine (sorted_eq_sorted_iff (distinct_put hes k a) (distinct_put hfs k a)).2 fun k' => ?_
  rw [get?_put, get?_put, (sorted_eq_sorted_iff hes hfs).1 h]

theorem sorted_remove_congr (k : κ) : (es.remove k).sorted = (fs.remove k).sorted := by
  refine (sorted_eq_sorted_iff (distinct_remove hes k) (distinct_remove hfs k)).2 fun k' => ?_
  rw [get?_remove, get?_remove, (sorted_eq_sorted_iff hes hfs).1 h]

theorem sorted_rename_congr (old new : κ) :
    (es.rename old new).sorted = (fs.rename old new).sorted := by
  have hreads := (sorted_eq_sorted_iff hes hfs).1 h
  refine (sorted_eq_sorted_iff (distinct_rename hes ..) (distinct_rename hfs ..)).2 fun k => ?_
  rw [get?_rename hes, get?_rename hfs, hreads, hreads]

end
end Entries

/-! ## Nodes in any order -/

namespace Node

variable {m n c d : Node} {cs ds : List Node}

theorem name_sorted (n : Node) : n.sorted.name = n.name := by
  rw [sorted_eq]

theorem wellFormed_sorted (n : Node) : n.sorted.WellFormed :=
  toNode_describe n ▸ n.describe.wellFormed_toNode

theorem sorted_same (n : Node) : n.sorted.Same n := sorted_sorted n

namespace WellFormed

variable (h : n.WellFormed)
include h

theorem property?_sorted (key : String) : n.sorted.property? key = n.property? key := by
  rw [sorted_eq]
  exact Entries.get?_sorted h.properties key

theorem get?_groups_sorted (group : String) :
    Entries.get? n.sorted.groups group = (Entries.get? n.groups group).map (·.map sorted) := by
  rw [sorted_eq]
  dsimp only
  rw [Entries.get?_sorted (Entries.distinct_map h.groups _), Entries.get?_map]

theorem hasGroup_sorted (group : String) : n.sorted.hasGroup group = n.hasGroup group := by
  rw [hasGroup, hasGroup, Entries.has, Entries.has, h.get?_groups_sorted, Option.isSome_map]

theorem childrenOf_sorted (group : String) :
    n.sorted.childrenOf group = (n.childrenOf group).map sorted := by
  rw [Node.childrenOf, Node.childrenOf, h.get?_groups_sorted]
  cases Entries.get? n.groups group <;> rfl

end WellFormed

/-- The three parts of a node, each in any order. -/
theorem same_iff_sorted : m.Same n ↔ m.name = n.name ∧
    Entries.sorted m.properties = Entries.sorted n.properties ∧
    Entries.sorted (m.groups.map fun e => (e.1, e.2.map sorted)) =
      Entries.sorted (n.groups.map fun e => (e.1, e.2.map sorted)) := by
  rw [Same, sorted_eq, sorted_eq, mk.injEq]

/-- Nodes are the same when they have the same type, properties and groups, and children in
each group that are the same one by one. -/
theorem same_iff (hm : m.WellFormed) (hn : n.WellFormed) : m.Same n ↔ m.name = n.name ∧
    (∀ key, m.property? key = n.property? key) ∧
    (∀ group, m.hasGroup group = n.hasGroup group) ∧
    ∀ group, (m.childrenOf group).map sorted = (n.childrenOf group).map sorted := by
  constructor
  · intro h
    refine ⟨?_, fun key => ?_, fun group => ?_, fun group => ?_⟩
    · rw [← name_sorted, h, name_sorted]
    · rw [← hm.property?_sorted, h, hn.property?_sorted]
    · rw [← hm.hasGroup_sorted, h, hn.hasGroup_sorted]
    · rw [← hm.childrenOf_sorted, h, hn.childrenOf_sorted]
  · rintro ⟨hname, hproperties, hgroups, hchildren⟩
    refine same_iff_sorted.2 ⟨hname, ?_, ?_⟩
    · exact (Entries.sorted_eq_sorted_iff hm.properties hn.properties).2 hproperties
    · refine (Entries.sorted_eq_sorted_iff (Entries.distinct_map hm.groups _)
        (Entries.distinct_map hn.groups _)).2 fun group => ?_
      rw [Entries.get?_map, Entries.get?_map]
      have hgroup := hgroups group
      cases hg : n.hasGroup group with
      | true =>
        rw [get?_groups_of_hasGroup hg, get?_groups_of_hasGroup (hgroup.trans hg),
          Option.map_some, Option.map_some, hchildren]
      | false =>
        rw [get?_groups_of_not_hasGroup hg, get?_groups_of_not_hasGroup (hgroup.trans hg)]

/-- Two nodes that are the same, or in both cases none. -/
theorem map_sorted_eq_iff {a b : Option Node} : a.map sorted = b.map sorted ↔
    (a = none ∧ b = none) ∨ ∃ m n, a = some m ∧ b = some n ∧ m.Same n := by
  cases a <;> cases b <;> simp [Same]

/-- Well-formed nodes that are the same. -/
structure Alike (m n : Node) : Prop where
  left : m.WellFormed
  right : n.WellFormed
  same : m.Same n

namespace Alike

variable (h : m.Alike n)
include h

theorem name : m.name = n.name := (same_iff_sorted.1 h.same).1

theorem property? (key : String) : m.property? key = n.property? key :=
  ((same_iff h.left h.right).1 h.same).2.1 key

theorem hasGroup (group : String) : m.hasGroup group = n.hasGroup group :=
  ((same_iff h.left h.right).1 h.same).2.2.1 group

theorem childrenOf (group : String) :
    (m.childrenOf group).map sorted = (n.childrenOf group).map sorted :=
  ((same_iff h.left h.right).1 h.same).2.2.2 group

theorem length_childrenOf (group : String) :
    (m.childrenOf group).length = (n.childrenOf group).length := by
  rw [← List.length_map (f := sorted), h.childrenOf, List.length_map]

/-- A step leads to nodes that are alike, or in both cases nowhere. -/
theorem child?_cases (s : Step) : (m.child? s = none ∧ n.child? s = none) ∨
    ∃ c d, m.child? s = some c ∧ n.child? s = some d ∧ c.Alike d := by
  have hsorted : (m.child? s).map sorted = (n.child? s).map sorted := by
    rw [Node.child?, Node.child?, ← List.getElem?_map, ← List.getElem?_map, h.childrenOf]
  rcases map_sorted_eq_iff.1 hsorted with hnone | ⟨c, d, hc, hd, hsame⟩
  · exact .inl hnone
  · exact .inr ⟨c, d, hc, hd, h.left.child? hc, h.right.child? hd, hsame⟩

/-- And so does a path. -/
theorem at?_cases (path : List Step) : (m.at? path = none ∧ n.at? path = none) ∨
    ∃ c d, m.at? path = some c ∧ n.at? path = some d ∧ c.Alike d := by
  induction path generalizing m n with
  | nil => exact .inr ⟨m, n, rfl, rfl, h⟩
  | cons s path ih =>
    rw [at?, at?]
    rcases h.child?_cases s with ⟨hc, hd⟩ | ⟨c, d, hc, hd, halike⟩
    · rw [hc, hd]
      exact .inl ⟨rfl, rfl⟩
    · rw [hc, hd]
      exact ih halike

/-! ### Changes of one part -/

theorem putProperty (key value : String) :
    (m.putProperty key value).Same (n.putProperty key value) := by
  obtain ⟨hname, hproperties, hgroups⟩ := same_iff_sorted.1 h.same
  refine same_iff_sorted.2 ⟨hname, ?_, hgroups⟩
  exact Entries.sorted_put_congr h.left.properties h.right.properties hproperties key value

theorem removeProperty (key : String) : (m.removeProperty key).Same (n.removeProperty key) := by
  obtain ⟨hname, hproperties, hgroups⟩ := same_iff_sorted.1 h.same
  refine same_iff_sorted.2 ⟨hname, ?_, hgroups⟩
  exact Entries.sorted_remove_congr h.left.properties h.right.properties hproperties key

theorem rekeyProperty? (old new : String) :
    (m.rekeyProperty? old new).map sorted = (n.rekeyProperty? old new).map sorted := by
  have hhas : Entries.has m.properties old = Entries.has n.properties old :=
    congrArg Option.isSome (h.property? old)
  obtain ⟨hname, hproperties, hgroups⟩ := same_iff_sorted.1 h.same
  rw [Node.rekeyProperty?, Node.rekeyProperty?, hhas]
  split
  · refine congrArg some (same_iff_sorted.2 ⟨hname, ?_, hgroups⟩)
    exact Entries.sorted_rename_congr h.left.properties h.right.properties hproperties old new
  · rfl

theorem setGroup (group : String) (hcs : cs.map sorted = ds.map sorted) :
    (m.setGroup group cs).Same (n.setGroup group ds) := by
  obtain ⟨hname, hproperties, hgroups⟩ := same_iff_sorted.1 h.same
  refine same_iff_sorted.2 ⟨hname, hproperties, ?_⟩
  rw [Node.setGroup, Node.setGroup, Entries.map_put, Entries.map_put, hcs]
  exact Entries.sorted_put_congr (Entries.distinct_map h.left.groups _)
    (Entries.distinct_map h.right.groups _) hgroups group _

theorem ensureGroup (group : String) : (m.ensureGroup group).Same (n.ensureGroup group) :=
  h.setGroup group (h.childrenOf group)

theorem insertChild? (s : Step) (hc : c.Same d) :
    (m.insertChild? s c).map sorted = (n.insertChild? s d).map sorted := by
  simp only [Node.insertChild?, h.length_childrenOf]
  split
  · refine congrArg some (h.setGroup s.group ?_)
    rw [List.map_insertIdx, List.map_insertIdx, h.childrenOf, hc]
  · rfl

theorem removeChild? (s : Step) :
    (m.removeChild? s).map sorted = (n.removeChild? s).map sorted := by
  simp only [Node.removeChild?, h.length_childrenOf]
  split
  · refine congrArg some (h.setGroup s.group ?_)
    rw [← List.eraseIdx_map, ← List.eraseIdx_map, h.childrenOf]
  · rfl

theorem setChild (s : Step) (hc : c.Same d) : (m.setChild s c).Same (n.setChild s d) := by
  refine h.setGroup s.group ?_
  rw [List.map_set, List.map_set, h.childrenOf, hc]

theorem putAt (path : List Step) (hc : c.Same d) : (m.putAt path c).Same (n.putAt path d) := by
  induction path generalizing m n with
  | nil => exact hc
  | cons s path ih =>
    rw [Node.putAt, Node.putAt]
    rcases h.child?_cases s with ⟨hm, hn⟩ | ⟨m', n', hm, hn, halike⟩
    · rw [hm, hn]
      exact h.same
    · rw [hm, hn]
      exact h.setChild s (ih halike)

end Alike
end Node
end BlockEdit
