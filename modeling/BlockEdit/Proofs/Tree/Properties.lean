/-
Edits of the properties of one node. The properties are entries under their
keys, so the laws of these edits are laws of entries, carried to the tree by
the node at the location (`exists_run_run`): what is written last counts, what
is renamed keeps its place, and only the order in which two new keys came is
left to tell which was written first.

All else stays: an edit of the properties puts a node with the same type and
the same children in the place of the one at the location
(`Tree.DiffersInProperties`).
-/
import BlockEdit.Proofs.Tree.Commuting
import BlockEdit.Proofs.Tree.Order

namespace BlockEdit

/-! ## Entries under other names -/

namespace Entries

variable {κ α : Type} [DecidableEq κ] {es : Entries κ α} {k k' old new : κ} {a : α}

theorem remove_put_self (es : Entries κ α) (k : κ) (a : α) :
    (es.put k a).remove k = es.remove k := by
  induction es with
  | nil => simp [put, remove]
  | cons e es ih =>
    obtain ⟨k', a'⟩ := e
    by_cases h : k' = k
    · simp [put, h, remove_cons]
    · simp [put, h, remove_cons, ih]

theorem rename_self (es : Entries κ α) (k : κ) : es.rename k k = es := by
  induction es with
  | nil => rfl
  | cons e es ih =>
    obtain ⟨k', a⟩ := e
    rw [rename_cons, ih]
    by_cases h : k' = k
    · rw [if_pos h, h]
    · rw [if_neg h, if_neg h]

/-- There and back again, only the entry that the first renaming wrote over is lost. -/
theorem rename_rename (h : new ≠ old) (es : Entries κ α) :
    (es.rename old new).rename new old = es.remove new := by
  induction es with
  | nil => rfl
  | cons e es ih =>
    obtain ⟨k, a⟩ := e
    rw [rename_cons, remove_cons]
    by_cases hold : k = old
    · rw [if_pos hold, rename_cons, if_pos rfl, ih, hold, if_neg (Ne.symm h)]
    · rw [if_neg hold]
      by_cases hnew : k = new
      · rw [if_pos hnew, if_pos hnew, ih]
      · rw [if_neg hnew, if_neg hnew, rename_cons, if_neg hnew, if_neg hold, ih]

theorem rename_of_not_mem (h : old ∉ es.keys) (new : κ) : es.rename old new = es.remove new := by
  induction es with
  | nil => rfl
  | cons e es ih =>
    obtain ⟨k, a⟩ := e
    rw [keys_cons, List.mem_cons, not_or] at h
    rw [rename_cons, remove_cons, if_neg (Ne.symm h.1), ih h.2]

/-- The new name stands where the old one stood among the entries that are left. -/
theorem exists_rename_eq (hd : es.Distinct) (ha : es.get? old = some a) (h : new ≠ old) :
    ∃ before after, es.remove new = before ++ (old, a) :: after ∧
      es.rename old new = before ++ (new, a) :: after := by
  induction es with
  | nil => cases ha
  | cons e es ih =>
    obtain ⟨k, a'⟩ := e
    rw [Distinct, keys_cons, List.nodup_cons] at hd
    rw [get?] at ha
    rw [remove_cons, rename_cons]
    by_cases hold : k = old
    · subst hold
      rw [if_pos rfl, Option.some.injEq] at ha
      rw [if_neg (Ne.symm h), if_pos rfl, rename_of_not_mem hd.1, ha]
      exact ⟨[], Entries.remove es new, rfl, rfl⟩
    · rw [if_neg hold] at ha
      obtain ⟨before, after, hremove, hrename⟩ := ih hd.2 ha
      rw [if_neg hold, hremove, hrename]
      by_cases hnew : k = new
      · rw [if_pos hnew, if_pos hnew]
        exact ⟨before, after, rfl, rfl⟩
      · rw [if_neg hnew, if_neg hnew]
        exact ⟨(k, a') :: before, after, rfl, rfl⟩

/-- Entries written under two names differ in order at most. -/
theorem sorted_put_put [Ord κ] [Std.TransOrd κ] [Std.LawfulEqOrd κ] (hd : es.Distinct)
    (h : k' ≠ k) (a b : α) : ((es.put k a).put k' b).sorted = ((es.put k' b).put k a).sorted := by
  refine (sorted_eq_sorted_iff (distinct_put (distinct_put hd ..) ..)
    (distinct_put (distinct_put hd ..) ..)).2 fun key => ?_
  rw [get?_put, get?_put, get?_put, get?_put]
  by_cases hk : key = k
  · rw [if_pos hk, if_pos hk, if_neg fun hk' => h (hk'.symm.trans hk)]
  · rw [if_neg hk, if_neg hk]

end Entries

/-! ## Properties of a node -/

namespace Node

variable {n m : Node} {a b value : String}

theorem property?_putProperty (n : Node) (a v key : String) :
    (n.putProperty a v).property? key = if key = a then some v else n.property? key :=
  Entries.get?_put n.properties a key v

theorem property?_removeProperty (n : Node) (a key : String) :
    (n.removeProperty a).property? key = if key = a then none else n.property? key :=
  Entries.get?_remove n.properties a key

theorem putProperty_putProperty (n : Node) (a v w : String) :
    (n.putProperty a v).putProperty a w = n.putProperty a w := by
  simp only [putProperty, Entries.put_put]

theorem removeProperty_putProperty (n : Node) (a v : String) :
    (n.putProperty a v).removeProperty a = n.removeProperty a := by
  simp only [putProperty, removeProperty, Entries.remove_put_self]

theorem putProperty_same (wf : n.WellFormed) (h : b ≠ a) (v w : String) :
    ((n.putProperty a v).putProperty b w).Same ((n.putProperty b w).putProperty a v) :=
  same_iff_sorted.2 ⟨rfl, Entries.sorted_put_put wf.properties h v w, rfl⟩

theorem has_of_property? (h : n.property? a = some value) : Entries.has n.properties a = true :=
  Option.isSome_of_eq_some h

theorem rekeyProperty?_self (h : n.property? a = some value) : n.rekeyProperty? a a = some n := by
  refine rekeyProperty?_eq_some_iff.2 ⟨has_of_property? h, ?_⟩
  rw [Entries.rename_self]
  cases n
  rfl

/-- The node with the property under its new key, and what comes of it when the key is given
back. -/
theorem exists_rekeyProperty? (wf : n.WellFormed) (h : n.property? a = some value) (hne : b ≠ a) :
    ∃ before after, Entries.remove n.properties b = before ++ (a, value) :: after ∧
      n.rekeyProperty? a b = some { n with properties := before ++ (b, value) :: after } ∧
      rekeyProperty? { n with properties := before ++ (b, value) :: after } b a =
        some (n.removeProperty b) := by
  obtain ⟨before, after, hremove, hrename⟩ := Entries.exists_rename_eq wf.properties h hne
  refine ⟨before, after, hremove, ?_, ?_⟩
  · exact rekeyProperty?_eq_some_iff.2 ⟨has_of_property? h, by rw [hrename]⟩
  · refine rekeyProperty?_eq_some_iff.2 ⟨?_, ?_⟩
    · rw [Entries.has_iff]
      exact List.mem_map_of_mem (f := (·.1)) (List.mem_append_right before (List.mem_cons_self ..))
    · rw [← hrename, Entries.rename_rename hne]
      rfl

/-- Below a node only its groups count. -/
theorem at?_cons_of_groups_eq (h : m.groups = n.groups) (s : Step) (path : List Step) :
    m.at? (s :: path) = n.at? (s :: path) := by
  rw [at?, at?, child?, child?, childrenOf, childrenOf, h]

end Node

namespace Tree

variable {t t' : Tree} {l : Location} {n m : Node}

/-! ## What is left alone -/

/-- The second tree differs from the first in the properties of the node at the location. -/
structure DiffersInProperties (t : Tree) (l : Location) (t' : Tree) : Prop where
  resolves : ∀ k, (t'.nodeAt? k).isSome = (t.nodeAt? k).isSome
  elsewhere : ∀ k, k.contains l = false → t'.nodeAt? k = t.nodeAt? k
  above : ∀ k, k.IsAbove l → (t'.nodeAt? k).map Node.frame = (t.nodeAt? k).map Node.frame
  edited : ∃ n m, t.nodeAt? l = some n ∧ t'.nodeAt? l = some m ∧ m.name = n.name ∧
    m.groups = n.groups

theorem differsInProperties_of_putAt (hn : t.nodeAt? l = some n) (hname : m.name = n.name)
    (hgroups : m.groups = n.groups) (hroot : t'.root = t.root.map (·.putAt l.steps m)) :
    t.DiffersInProperties l t' := by
  have hself := nodeAt?_self_of_putAt hroot hn
  have hbelow := Node.at?_cons_of_groups_eq hgroups
  refine ⟨fun k => ?_, fun k => nodeAt?_of_putAt_of_not_contains hn hroot hbelow,
    fun k hk => map_frame_of_putAt hn hroot hbelow hk.2.symm, n, m, hn, hself, hname, hgroups⟩
  by_cases hk : k = l
  · rw [hk, hself, hn, Option.isSome_some, Option.isSome_some]
  · have hframe := congrArg Option.isSome (map_frame_of_putAt hn hroot hbelow hk)
    rwa [Option.isSome_map, Option.isSome_map] at hframe

end Tree

namespace HeadEdit

variable {t t' : Tree} {l : Location} {n m m' : Node} {e : HeadEdit}

/-- The edit leaves the groups alone. -/
def OfProperties (e : HeadEdit) : Prop := ∀ group, e ≠ .addGroup group

theorem OfProperties.name_of_groups (h : e.OfProperties) (hm : e.change.run n = some m) :
    m.name = n.name ∧ m.groups = n.groups := by
  cases e with
  | putProperty key value =>
    cases hm
    exact ⟨rfl, rfl⟩
  | rekeyProperty old new =>
    obtain ⟨-, rfl⟩ := Node.rekeyProperty?_eq_some_iff.1 hm
    exact ⟨rfl, rfl⟩
  | removeProperty key =>
    cases hm
    exact ⟨rfl, rfl⟩
  | addGroup group => exact absurd rfl (h group)

theorem OfProperties.differsInProperties (h : e.OfProperties) (ht : (e.editAt l).run t = .ok t') :
    t.DiffersInProperties l t' := by
  obtain ⟨n, m, hn, hm, hroot⟩ := run_editAt_iff.1 ht
  obtain ⟨hname, hgroups⟩ := h.name_of_groups hm
  exact Tree.differsInProperties_of_putAt hn hname hgroups hroot

/-! ## One edit after another -/

/-- What an edit does to the node, it does in the tree. -/
theorem exists_run (e : HeadEdit) (hn : t.nodeAt? l = some n) (h : e.change.run n = some m) :
    ∃ x, (e.editAt l).run t = .ok x ∧ x.nodeAt? l = some m ∧
      x.root = t.root.map (·.putAt l.steps m) := by
  have wf : m.WellFormed := e.change.keeps (Tree.wellFormed_of_nodeAt? hn) h
  exact ⟨t.putAt l m wf, run_editAt_iff.2 ⟨n, m, hn, h, rfl⟩, Tree.nodeAt?_putAt_self hn, rfl⟩

/-- Two edits of one node come to the node that the one makes of what the other made. -/
theorem exists_run_run (e₁ e₂ : HeadEdit) (hn : t.nodeAt? l = some n)
    (h₁ : e₁.change.run n = some m) (h₂ : e₂.change.run m = some m') :
    ∃ x y, (e₁.editAt l).run t = .ok x ∧ (e₂.editAt l).run x = .ok y ∧
      x.nodeAt? l = some m ∧ y.root = t.root.map (·.putAt l.steps m') := by
  obtain ⟨x, hx, hat, hrootx⟩ := e₁.exists_run hn h₁
  obtain ⟨y, hy, -, hrooty⟩ := e₂.exists_run hat h₂
  exact ⟨x, y, hx, hy, hat, hrooty.trans (Tree.root_of_putAt_putAt hrootx)⟩

/-- What two edits do to the node in turn, they do to the tree, and a third one that does the same
at once makes the same tree. -/
theorem exists_run_run_eq_run (e₁ e₂ e₃ : HeadEdit) (hn : t.nodeAt? l = some n)
    (h₁ : e₁.change.run n = some m) (h₂ : e₂.change.run m = some m')
    (h₃ : e₃.change.run n = some m') :
    ∃ x y, (e₁.editAt l).run t = .ok x ∧ (e₂.editAt l).run x = .ok y ∧
      (e₃.editAt l).run t = .ok y ∧ x.nodeAt? l = some m := by
  obtain ⟨x, y, hx, hy, hat, hroot⟩ := exists_run_run e₁ e₂ hn h₁ h₂
  exact ⟨x, y, hx, hy, run_editAt_iff.2 ⟨n, m', hn, h₃, hroot⟩, hat⟩

end HeadEdit

/-! ## The laws -/

namespace Tree

variable {t : Tree} {l : Location} {n : Node} {a b : String}

theorem exists_putProperty_same (hn : t.nodeAt? l = some n) (hne : b ≠ a) (v w : String) :
    ∃ x y x' y', t.putProperty l a v = .ok x ∧ x.putProperty l b w = .ok y ∧
      t.putProperty l b w = .ok x' ∧ x'.putProperty l a v = .ok y' ∧ y.Same y' := by
  obtain ⟨x, y, hx, hy, -, hroot⟩ := HeadEdit.exists_run_run
    (.putProperty a v) (.putProperty b w) hn rfl rfl
  obtain ⟨x', y', hx', hy', -, hroot'⟩ := HeadEdit.exists_run_run
    (.putProperty b w) (.putProperty a v) hn rfl rfl
  have wf := wellFormed_of_nodeAt? hn
  obtain rfl : y = t.putAt l _ ((wf.putProperty a v).putProperty b w) := Tree.ext hroot
  obtain rfl : y' = t.putAt l _ ((wf.putProperty b w).putProperty a v) := Tree.ext hroot'
  have hself : t.Same t := rfl
  exact ⟨x, _, x', _, hx, hy, hx', hy', hself.putAt l _ _ (Node.putProperty_same wf hne v w)⟩

theorem rekeyProperty_self {value : String} (hn : t.nodeAt? l = some n)
    (h : n.property? a = some value) : t.rekeyProperty l a a = .ok t :=
  rekeyProperty_eq_ok_iff.2 ⟨n, n, hn, Node.rekeyProperty?_self h, (root_of_putAt_self hn).symm⟩

theorem rekeyProperty_of_property?_eq_none (hn : t.nodeAt? l = some n)
    (h : n.property? a = none) (key : String) :
    t.rekeyProperty l a key = .error (.noSuchProperty l a) := by
  have hhas : Entries.has n.properties a = false :=
    Option.isSome_eq_false_iff.2 (Option.isNone_iff_eq_none.2 h)
  refine modifyAt_eq_error_iff.2 (.inr ⟨n, hn, orFail_eq_error_iff.2 ⟨?_, rfl⟩⟩)
  rw [Node.rekeyProperty?, hhas]
  rfl

/-- **Edits of properties.** At a node that is there a property reads as it was written last, or is
none if it was removed, and the others read as they did. The last text of a property is the one
that counts, and one that is written and removed might as well have been removed; properties under
two keys can be written in either order, up to the order in which the keys came. A property
that gets another key stands where it stood among those that are left, and what had that key is
lost; with its old key given back, that is all that is lost. None of these edits changes where any
location leads, but for the properties of this one node. -/
theorem property_edits (hn : t.nodeAt? l = some n) (hne : b ≠ a) (v w : String) :
    (∃ x m, t.putProperty l a v = .ok x ∧ x.nodeAt? l = some m ∧
      ∀ key, m.property? key = if key = a then some v else n.property? key) ∧
    (∃ x m, t.removeProperty l a = .ok x ∧ x.nodeAt? l = some m ∧
      ∀ key, m.property? key = if key = a then none else n.property? key) ∧
    (∃ x y, t.putProperty l a v = .ok x ∧ x.putProperty l a w = .ok y ∧
      t.putProperty l a w = .ok y) ∧
    (∃ x y, t.putProperty l a v = .ok x ∧ x.removeProperty l a = .ok y ∧
      t.removeProperty l a = .ok y) ∧
    (∃ x y x' y', t.putProperty l a v = .ok x ∧ x.putProperty l b w = .ok y ∧
      t.putProperty l b w = .ok x' ∧ x'.putProperty l a v = .ok y' ∧ y.Same y') ∧
    (∀ value, n.property? a = some value →
      t.rekeyProperty l a a = .ok t ∧
      ∃ x y before after, t.rekeyProperty l a b = .ok x ∧ x.rekeyProperty l b a = .ok y ∧
        t.removeProperty l b = .ok y ∧
        n.properties.filter (·.1 ≠ b) = before ++ (a, value) :: after ∧
        x.nodeAt? l = some { n with properties := before ++ (b, value) :: after }) ∧
    (n.property? a = none →
      ∀ key, t.rekeyProperty l a key = .error (.noSuchProperty l a)) ∧
    ∀ (e : HeadEdit) (t' : Tree), e.OfProperties → (e.editAt l).run t = .ok t' →
      t.DiffersInProperties l t' := by
  refine ⟨?_, ?_, ?_, ?_, exists_putProperty_same hn hne v w, fun value h => ?_,
    rekeyProperty_of_property?_eq_none hn, fun e t' he => he.differsInProperties⟩
  · obtain ⟨x, hx, hat, -⟩ := HeadEdit.exists_run (.putProperty a v) hn rfl
    exact ⟨x, _, hx, hat, n.property?_putProperty a v⟩
  · obtain ⟨x, hx, hat, -⟩ := HeadEdit.exists_run (.removeProperty a) hn rfl
    exact ⟨x, _, hx, hat, n.property?_removeProperty a⟩
  · obtain ⟨x, y, hx, hy, hy', -⟩ := HeadEdit.exists_run_run_eq_run
      (.putProperty a v) (.putProperty a w) (.putProperty a w) hn rfl rfl
      (congrArg some (Node.putProperty_putProperty n a v w).symm)
    exact ⟨x, y, hx, hy, hy'⟩
  · obtain ⟨x, y, hx, hy, hy', -⟩ := HeadEdit.exists_run_run_eq_run
      (.putProperty a v) (.removeProperty a) (.removeProperty a) hn rfl rfl
      (congrArg some (Node.removeProperty_putProperty n a v).symm)
    exact ⟨x, y, hx, hy, hy'⟩
  · obtain ⟨before, after, hremove, hrekey, hback⟩ :=
      Node.exists_rekeyProperty? (wellFormed_of_nodeAt? hn) h hne
    obtain ⟨x, y, hx, hy, hy', hat⟩ := HeadEdit.exists_run_run_eq_run
      (.rekeyProperty a b) (.rekeyProperty b a) (.removeProperty b) hn hrekey hback rfl
    exact ⟨rekeyProperty_self hn h, x, y, before, after, hx, hy, hy', hremove, hat⟩

/-- A page with one note, which had got its title first and its date last. -/
def datedPage : Tree where
  root := some ⟨⟨"doc", "page"⟩, [], [("items", [
    ⟨⟨"doc", "note"⟩, [("title", "Order"), ("author", "none"), ("date", "today")], []⟩])]⟩
  wellFormed := by
    rintro n hn
    cases hn
    decide

/-- The date, made the title, stays behind the author, and the former title is lost for good. -/
theorem property_edits_dated_note :
    datedPage.nodeAt? (Location.root.child "items" 0) =
      some ⟨⟨"doc", "note"⟩, [("title", "Order"), ("author", "none"), ("date", "today")], []⟩ ∧
    ∃ x y, datedPage.rekeyProperty (Location.root.child "items" 0) "date" "title" = .ok x ∧
      x.nodeAt? (Location.root.child "items" 0) =
        some ⟨⟨"doc", "note"⟩, [("author", "none"), ("title", "today")], []⟩ ∧
      (x.nodeAt? .root).map Node.frame = (datedPage.nodeAt? .root).map Node.frame ∧
      x.rekeyProperty (Location.root.child "items" 0) "title" "date" = .ok y ∧
      datedPage.removeProperty (Location.root.child "items" 0) "title" = .ok y := by
  have hn : datedPage.nodeAt? (Location.root.child "items" 0) =
      some ⟨⟨"doc", "note"⟩, [("title", "Order"), ("author", "none"), ("date", "today")], []⟩ := rfl
  have hne : "title" ≠ "date" := by decide
  obtain ⟨-, -, -, -, -, hrekey, -, hframe⟩ := property_edits hn hne "v" "w"
  obtain ⟨-, x, y, before, after, hx, hy, hy', hleft, hat⟩ := hrekey "today" rfl
  have hparts : before = [("author", "none")] ∧ after = [] := by
    simpa [List.cons_eq_append_iff] using hleft
  obtain ⟨rfl, rfl⟩ := hparts
  refine ⟨hn, x, y, hx, hat, ?_, hy, hy'⟩
  have hdiffers := hframe (.rekeyProperty "date" "title") x nofun hx
  exact hdiffers.above .root (by decide)

end Tree
end BlockEdit
