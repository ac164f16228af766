/-
Edits as values, so that a statement can be about all of them. An edit is
within a location if the places it names are there, and if it leaves the node
at the location itself in its type (`Edit.Within`).

All that such an edit does is to put another node of the same type in the
place of the one at the location (`Edit.Within.changedAt`). A removal and an
insertion within a location are one such change together, and so a move is
one too.
-/
import BlockEdit.Proofs.Tree.Move

namespace BlockEdit

inductive Edit where
  | insert (l : Location) (d : Description)
  | replace (l : Location) (d : Description)
  | delete (l : Location)
  | move (source target : Location)
  | putProperty (l : Location) (key value : String)
  | rekeyProperty (l : Location) (old new : String)
  | removeProperty (l : Location) (key : String)
  | addGroup (l : Location) (group : String)
deriving DecidableEq

def Edit.run (t : Tree) : Edit → Except EditError Tree
  | insert l d => t.insert l d
  | replace l d => t.replace l d
  | delete l => t.delete l
  | move source target => t.move source target
  | putProperty l key value => t.putProperty l key value
  | rekeyProperty l old new => t.rekeyProperty l old new
  | removeProperty l key => t.removeProperty l key
  | addGroup l group => t.addGroup l group

theorem Node.rekeyProperty?_eq_some_iff {n m : Node} {old new : String} :
    n.rekeyProperty? old new = some m ↔ Entries.has n.properties old = true ∧
      m = { n with properties := Entries.rename n.properties old new } := by
  rw [rekeyProperty?]
  split
  · next h => simp [h, eq_comm]
  · next h => simp [h]

namespace Location

/-- The other location lies below this one. -/
def IsAbove (l m : Location) : Prop := l.contains m = true ∧ m ≠ l

instance (l m : Location) : Decidable (l.IsAbove m) :=
  inferInstanceAs (Decidable (l.contains m = true ∧ m ≠ l))

variable {l m removed : Location} {s : Step}

theorem not_isAbove_root (l : Location) : ¬ l.IsAbove root := by
  rintro ⟨h, hne⟩
  obtain ⟨steps⟩ := l
  exact hne (congrArg mk (List.prefix_nil.1 (contains_iff.1 h)).symm)

theorem isAbove_child_iff : l.IsAbove (m.child s.group s.index) ↔ l.contains m = true := by
  constructor
  · rintro ⟨h, hne⟩
    exact (eq_or_contains_of_contains_child h).resolve_left (Ne.symm hne)
  · intro h
    refine ⟨contains_child h s, fun he => ?_⟩
    have hself := child_not_contains m s
    rw [he, h] at hself
    cases hself

theorem IsAbove.exists_child (h : l.IsAbove m) : ∃ (parent : Location) (s : Step),
    m = parent.child s.group s.index ∧ l.contains parent = true := by
  rcases m.eq_root_or_exists_child with rfl | ⟨parent, s, rfl⟩
  · exact absurd h (not_isAbove_root l)
  · exact ⟨parent, s, rfl, isAbove_child_iff.1 h⟩

theorem isAbove_of_contains_along {path : List Step} (h : l.contains m = true) (s : Step) :
    l.IsAbove (m.along (s :: path)) := by
  rw [← along_child]
  refine ⟨contains_iff.2 ?_, fun he => ?_⟩
  · exact (contains_iff.1 (contains_child h s)).trans (List.prefix_append ..)
  · have hself := child_not_contains m s
    rw [← Bool.not_eq_true, contains_iff] at hself
    rw [← he] at h
    exact hself ((List.prefix_append ..).trans (contains_iff.1 h))

/-- What lies below a location does so after another node below it is gone. -/
theorem IsAbove.afterRemoval {m' : Location} (hm : l.IsAbove m) (hr : l.IsAbove removed)
    (h : m.afterRemoval removed = some m') : l.IsAbove m' := by
  obtain ⟨parent, r, rfl, hparent⟩ := hr.exists_child
  rcases afterRemoval_child_cases h with ⟨-, rfl⟩ | ⟨rfl, rfl⟩ | ⟨s, path, -, rfl, rfl⟩
  · exact hm
  · exact hm
  · exact isAbove_of_contains_along hparent _

end Location

/-! ## Another node in one place -/

namespace Tree

variable {t t' t₁ : Tree} {l k : Location}

theorem replace_eq_ok_iff {d : Description} : t.replace l d = .ok t' ↔
    ∃ n, t.nodeAt? l = some n ∧ t'.root = t.root.map (·.putAt l.steps d.toNode) := by
  rw [replace, modifyAt_eq_ok_iff]
  simp only [Except.ok.injEq, exists_and_left, exists_eq_left']

theorem putProperty_eq_ok_iff {key value : String} : t.putProperty l key value = .ok t' ↔
    ∃ n, t.nodeAt? l = some n ∧
      t'.root = t.root.map (·.putAt l.steps (n.putProperty key value)) := by
  rw [putProperty, modifyAt_eq_ok_iff]
  simp only [Except.ok.injEq, exists_and_left, exists_eq_left']

theorem rekeyProperty_eq_ok_iff {old new : String} : t.rekeyProperty l old new = .ok t' ↔
    ∃ n m, t.nodeAt? l = some n ∧ n.rekeyProperty? old new = some m ∧
      t'.root = t.root.map (·.putAt l.steps m) := by
  rw [rekeyProperty, modifyAt_eq_ok_iff]
  simp only [orFail_eq_ok_iff]

theorem removeProperty_eq_ok_iff {key : String} : t.removeProperty l key = .ok t' ↔
    ∃ n, t.nodeAt? l = some n ∧
      t'.root = t.root.map (·.putAt l.steps (n.removeProperty key)) := by
  rw [removeProperty, modifyAt_eq_ok_iff]
  simp only [Except.ok.injEq, exists_and_left, exists_eq_left']

/-! ### Changes of one node -/

/-- The second tree has another node at the location, of the same type, and is the same
otherwise. -/
def ChangedAt (t : Tree) (l : Location) (t' : Tree) : Prop :=
  ∃ n m, t.nodeAt? l = some n ∧ m.name = n.name ∧ t'.root = t.root.map (·.putAt l.steps m)

theorem changedAt_of_putAt {n m : Node} (hl : l.contains k = true) (hn : t.nodeAt? k = some n)
    (hroot : t'.root = t.root.map (·.putAt k.steps m)) (hname : k = l → m.name = n.name) :
    t.ChangedAt l t' := by
  obtain ⟨path, rfl⟩ := Location.contains_iff_exists_along.1 hl
  rw [nodeAt?_along] at hn
  obtain ⟨top, htop, hn⟩ := Option.bind_eq_some_iff.1 hn
  refine ⟨top, top.putAt path m, htop, ?_, ?_⟩
  · exact Node.name_putAt hn fun hnil => hname (hnil ▸ l.along_nil)
  · obtain ⟨root, hr, hat⟩ := nodeAt?_eq_some_iff.1 htop
    rw [hroot, hr, Option.map_some, Option.map_some]
    exact congrArg some (Node.putAt_append hat path m)

/-- A tree may be taken for changed where it has a node. -/
theorem changedAt_self {n : Node} (hl : l.contains k = true) (hn : t.nodeAt? k = some n) :
    t.ChangedAt l t :=
  changedAt_of_putAt hl hn (root_of_putAt_self hn).symm fun _ => rfl

theorem ChangedAt.trans (h : t.ChangedAt l t₁) (h' : t₁.ChangedAt l t') : t.ChangedAt l t' := by
  obtain ⟨n, m, hn, hname, hroot⟩ := h
  obtain ⟨n', m', hn', hname', hroot'⟩ := h'
  rw [nodeAt?_self_of_putAt hroot hn] at hn'
  cases hn'
  exact ⟨n, m', hn, hname'.trans hname, hroot'.trans (root_of_putAt_putAt hroot)⟩

theorem changedAt_of_insert {d : Description} (hl : l.IsAbove k) (h : t.insert k d = .ok t') :
    t.ChangedAt l t' := by
  obtain ⟨parent, s, rfl, hparent⟩ := hl.exists_child
  obtain ⟨n, m, hn, hm, hroot⟩ := insert_child_eq_ok_iff.1 h
  have hname : m.name = n.name := by rw [(Node.insertChild?_eq_some_iff.1 hm).2, Node.setGroup]
  exact changedAt_of_putAt hparent hn hroot fun _ => hname

theorem changedAt_of_delete (hl : l.IsAbove k) (h : t.delete k = .ok t') : t.ChangedAt l t' := by
  obtain ⟨parent, s, rfl, hparent⟩ := hl.exists_child
  obtain ⟨n, m, hn, hm, hroot⟩ := delete_child_eq_ok_iff.1 h
  exact changedAt_of_putAt hparent hn hroot fun _ => (Node.sameHead_of_removeChild? hm).name

/-- A move is no change, or a removal and an insertion. -/
theorem changedAt_of_move {source target : Location} (hs : l.IsAbove source)
    (ht : l.IsAbove target) (h : t.move source target = .ok t') : t.ChangedAt l t' := by
  cases hn : t.nodeAt? source with
  | none =>
    rw [move_of_nodeAt?_eq_none hn] at h
    cases h
  | some n =>
    rw [move_of_nodeAt? hn] at h
    split at h
    · cases h
      exact changedAt_self hs.1 hn
    · split at h
      · cases h
      · next adjusted ha =>
        cases hdelete : t.delete source with
        | error e =>
          rw [hdelete] at h
          cases h
        | ok t₁ =>
          rw [hdelete] at h
          have hadjusted := ht.afterRemoval hs ha
          exact (changedAt_of_delete hs hdelete).trans (changedAt_of_insert hadjusted h)

end Tree

/-! ## Edits within a location -/

namespace Edit

/-- The edit is at work at the location or below it, and does not give the node there another
type. -/
inductive Within (t : Tree) (l : Location) : Edit → Prop where
  | insert {k : Location} {d : Description} (below : l.IsAbove k) : Within t l (.insert k d)
  | replace {k : Location} {d : Description} (below : l.IsAbove k) : Within t l (.replace k d)
  | replaceSelf {n : Node} {d : Description} (present : t.nodeAt? l = some n)
      (type : d.typeName = n.name) : Within t l (.replace l d)
  | delete {k : Location} (below : l.IsAbove k) : Within t l (.delete k)
  | move {source target : Location} (source_below : l.IsAbove source)
      (target_below : l.IsAbove target) : Within t l (.move source target)
  | putProperty {k : Location} {key value : String} (within : l.contains k = true) :
      Within t l (.putProperty k key value)
  | rekeyProperty {k : Location} {old new : String} (within : l.contains k = true) :
      Within t l (.rekeyProperty k old new)
  | removeProperty {k : Location} {key : String} (within : l.contains k = true) :
      Within t l (.removeProperty k key)
  | addGroup {k : Location} {group : String} (within : l.contains k = true) :
      Within t l (.addGroup k group)

theorem Within.changedAt {t t' : Tree} {l : Location} {e : Edit} (h : e.Within t l)
    (hrun : e.run t = .ok t') : t.ChangedAt l t' := by
  cases h with
  | insert below => exact Tree.changedAt_of_insert below hrun
  | replace below =>
    obtain ⟨n, hn, hroot⟩ := Tree.replace_eq_ok_iff.1 hrun
    exact Tree.changedAt_of_putAt below.1 hn hroot fun he => absurd he below.2
  | replaceSelf present type =>
    obtain ⟨n, hn, hroot⟩ := Tree.replace_eq_ok_iff.1 hrun
    rw [present] at hn
    cases hn
    exact ⟨_, _, present, (Description.name_toNode _).trans type, hroot⟩
  | delete below => exact Tree.changedAt_of_delete below hrun
  | move source_below target_below => exact Tree.changedAt_of_move source_below target_below hrun
  | putProperty within =>
    obtain ⟨n, hn, hroot⟩ := Tree.putProperty_eq_ok_iff.1 hrun
    exact Tree.changedAt_of_putAt within hn hroot fun _ => rfl
  | rekeyProperty within =>
    obtain ⟨n, m, hn, hm, hroot⟩ := Tree.rekeyProperty_eq_ok_iff.1 hrun
    have hname : m.name = n.name := by rw [(Node.rekeyProperty?_eq_some_iff.1 hm).2]
    exact Tree.changedAt_of_putAt within hn hroot fun _ => hname
  | removeProperty within =>
    obtain ⟨n, hn, hroot⟩ := Tree.removeProperty_eq_ok_iff.1 hrun
    exact Tree.changedAt_of_putAt within hn hroot fun _ => rfl
  | addGroup within =>
    obtain ⟨n, hn, hroot⟩ := Tree.addGroup_eq_ok_iff.1 hrun
    exact Tree.changedAt_of_putAt within hn hroot fun _ => rfl

end Edit
end BlockEdit
