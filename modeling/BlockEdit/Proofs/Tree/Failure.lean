/-
Which location a failure names. An edit works on one node and hands down the
location it was asked for, to be named if that node is not there; so what a
failure names is a place its caller knows.

A move is two edits, and the second is asked for the target as it reads after
the first. Where the target has no slot and the removal shifts it, the move
names the shifted location, which its caller never passed. That is the one
failure of this kind (`Edit.names_iff`).
-/
import BlockEdit.Inspection
import BlockEdit.Proofs.Drop.Placement
import BlockEdit.Proofs.Tree.Edits

namespace BlockEdit

/-- The location that an error says is not there, or has not the property. -/
def EditError.place? : EditError → Option Location
  | noSuchLocation l | noSuchProperty l _ => some l
  | hasRoot | moveIntoItself .. => none

/-- The locations that the caller passes. -/
def Edit.places : Edit → List Location
  | insert l _ | replace l _ | delete l | putProperty l .. | rekeyProperty l .. |
    removeProperty l _ | addGroup l _ => [l]
  | move source target => [source, target]

namespace Tree

variable {t : Tree} {l source target parent : Location} {s : Step} {e e' : EditError} {n : Node}
  {d : Description}

/-! ## One node -/

theorem place?_of_orFail {n? : Option Node} (h : orFail e n? = .error e') : e'.place? = e.place? := by
  rw [(orFail_eq_error_iff.1 h).2]

/-- A change of one node names what it was told to, if the change itself does. -/
theorem place?_of_modifyAt {reported : Location} {edit : Node → Except EditError Node}
    {keeps : ∀ ⦃n m : Node⦄, n.WellFormed → edit n = .ok m → m.WellFormed}
    (h : t.modifyAt target reported edit keeps = .error e)
    (hedit : ∀ n, edit n = .error e → e.place? = some reported) : e.place? = some reported := by
  rcases modifyAt_eq_error_iff.1 h with ⟨-, rfl⟩ | ⟨n, -, hn⟩
  · rfl
  · exact hedit n hn

theorem place?_of_insert (h : t.insert l d = .error e) : e = .hasRoot ∨ e.place? = some l := by
  rw [insert] at h
  split at h
  · split at h
    · cases h
    · cases h
      exact .inl rfl
  · exact .inr (place?_of_modifyAt h fun _ => place?_of_orFail)

theorem place?_of_delete (h : t.delete l = .error e) : e.place? = some l := by
  rw [delete] at h
  split at h
  · cases hn : t.nodeAt? l with
    | some n =>
      rw [nodeAt_of_some hn] at h
      cases h
    | none =>
      rw [nodeAt_of_none hn] at h
      cases h
      rfl
  · exact place?_of_modifyAt h fun _ => place?_of_orFail

/-! ## A move -/

/-- A target that reads as the source after the removal is the slot right behind it, and there. -/
theorem hasSlot_of_afterRemoval_eq_source (hn : (t.nodeAt? source).isSome)
    (h : (parent.child s.group s.index).afterRemoval source = some source) :
    t.HasSlot parent s := by
  rcases source.eq_root_or_exists_child with rfl | ⟨above, r, rfl⟩
  · cases h
  obtain ⟨n, hn⟩ := Option.isSome_iff_exists.1 hn
  rw [nodeAt?_child] at hn
  obtain ⟨p, hp, hchild⟩ := Option.bind_eq_some_iff.1 hn
  rcases Location.child_afterRemoval_child_cases h with ⟨rfl, hs, heq⟩ | ⟨hne, l', hl', heq⟩
  · obtain ⟨-, hgroup, hindex⟩ := Location.child_inj heq
    refine ⟨p, hp, ?_⟩
    obtain ⟨hlt, -⟩ := List.getElem?_eq_some_iff.1 hchild
    rw [hgroup] at hlt
    by_cases hlater : s.group = r.group ∧ r.index < s.index
    · rw [Step.afterRemoval_of_later hlater] at hindex
      dsimp only at hindex
      omega
    · rw [Step.afterRemoval_of_not_later hlater] at hindex
      exact absurd (Step.eq_of_group_of_index hgroup.symm hindex.symm) hs
  · -- the parent would read as that of the source, which stays
    obtain rfl := (Location.child_inj heq).1
    have hself := Location.self_afterRemoval_child above r
    rw [Location.afterRemoval_eq_some_iff] at hl' hself
    exact absurd (hl'.2.trans hself.2.symm) hne

/-- A move to a child's place that is not below the node: if there is a slot it succeeds, and
if not it names the target, read anew. -/
theorem move_child_cases (hn : t.nodeAt? source = some n)
    (hc : source.contains (parent.child s.group s.index) = false) :
    ∃ adjusted, (parent.child s.group s.index).afterRemoval source = some adjusted ∧
      ((t.HasSlot parent s ∧ ∃ t', t.move source (parent.child s.group s.index) = .ok t') ∨
        (¬ t.HasSlot parent s ∧
          t.move source (parent.child s.group s.index) = .error (.noSuchLocation adjusted))) := by
  obtain ⟨t₁, adjusted, hdelete, ha, hmove⟩ := move_of_not_contains hn hc
  obtain ⟨parent', i, rfl, -, hslot⟩ := hasSlot_of_delete_iff hdelete ha
  refine ⟨_, ha, ?_⟩
  rw [hmove]
  by_cases h : t.HasSlot parent s
  · exact .inl ⟨h, exists_insert_child_iff.2 (hslot.2 h)⟩
  · exact .inr ⟨h, insert_child_of_not_hasSlot (fun h' => h (hslot.1 h')) _⟩

/-- A move that finds its node names a location just if the target has no slot, and then the
target, read anew. -/
theorem exists_move_eq_error_iff (hn : t.nodeAt? source = some n) :
    (∃ e, t.move source target = .error e ∧ e.place? = some l) ↔
      ∃ parent s, target = parent.child s.group s.index ∧ ¬ t.HasSlot parent s ∧
        target.afterRemoval source = some l := by
  constructor
  · rintro ⟨e, he, hl⟩
    cases hc : source.contains target with
    | true =>
      by_cases hne : target = source
      · rw [move_of_nodeAt? hn, if_pos hne] at he
        cases he
      · rw [move_of_contains hn hne hc] at he
        cases he
        cases hl
    | false =>
      rcases target.eq_root_or_exists_child with rfl | ⟨parent, s, rfl⟩
      · rw [move_to_root hn hc] at he
        cases he
        cases hl
      · obtain ⟨adjusted, ha, ⟨-, t', hok⟩ | ⟨hno, herr⟩⟩ := move_child_cases hn hc
        · rw [hok] at he
          cases he
        · rw [herr] at he
          cases he
          exact ⟨parent, s, rfl, hno, ha.trans hl⟩
  · rintro ⟨parent, s, rfl, hno, hl⟩
    have hc : source.contains (parent.child s.group s.index) = false := by
      rw [← Bool.not_eq_true, ← Location.afterRemoval_eq_none_iff, hl]
      exact Option.some_ne_none l
    obtain ⟨adjusted, ha, ⟨hslot, -⟩ | ⟨-, herr⟩⟩ := move_child_cases hn hc
    · exact absurd hslot hno
    · exact ⟨_, herr, ha.symm.trans hl⟩

end Tree

/-! ## All requests -/

namespace Edit

/-- The edit fails and names this location. -/
def Names (t : Tree) (e : Edit) (l : Location) : Prop :=
  ∃ err, e.run t = .error err ∧ err.place? = some l

/-- The node to move is there, but the target has no slot, and without the node it reads as
this other location. -/
structure Overshoots (t : Tree) (source target l : Location) : Prop where
  present : (t.nodeAt? source).isSome
  missing : ∃ parent s, target = parent.child s.group s.index ∧ ¬ t.HasSlot parent s
  shifted : target.afterRemoval source = some l
  moved : l ≠ target

variable {t : Tree} {l source target : Location}

theorem mem_places_of_names {e : Edit} (hmove : ∀ source target, e ≠ .move source target)
    (h : e.Names t l) : l ∈ e.places := by
  obtain ⟨err, hrun, hl⟩ := h
  have hmem : ∀ {k}, err.place? = some k → l ∈ [k] := fun hk => by
    rw [hl, Option.some.injEq] at hk
    exact List.mem_singleton.2 hk
  cases e with
  | insert k d =>
    rcases Tree.place?_of_insert hrun with rfl | hk
    · cases hl
    · exact hmem hk
  | replace k d =>
    rw [run, Tree.replace] at hrun
    exact hmem (Tree.place?_of_modifyAt hrun fun _ h => by cases h)
  | delete k => exact hmem (Tree.place?_of_delete hrun)
  | move source target => exact absurd rfl (hmove source target)
  | putProperty k key value =>
    rw [run, Tree.putProperty] at hrun
    exact hmem (Tree.place?_of_modifyAt hrun fun _ h => by cases h)
  | rekeyProperty k old new =>
    rw [run, Tree.rekeyProperty] at hrun
    exact hmem (Tree.place?_of_modifyAt hrun fun _ => Tree.place?_of_orFail)
  | removeProperty k key =>
    rw [run, Tree.removeProperty] at hrun
    exact hmem (Tree.place?_of_modifyAt hrun fun _ h => by cases h)
  | addGroup k group =>
    rw [run, Tree.addGroup] at hrun
    exact hmem (Tree.place?_of_modifyAt hrun fun _ h => by cases h)

theorem names_move_iff : (move source target).Names t l ∧ l ∉ (move source target).places ↔
    Overshoots t source target l := by
  cases hn : t.nodeAt? source with
  | none =>
    constructor
    · rintro ⟨⟨err, hrun, hl⟩, hnot⟩
      rw [run, Tree.move_of_nodeAt?_eq_none hn] at hrun
      cases hrun
      cases hl
      simp [places] at hnot
    · intro h
      have hpresent := h.present
      rw [hn] at hpresent
      cases hpresent
  | some n =>
    have hnames : (move source target).Names t l ↔ ∃ parent s,
        target = parent.child s.group s.index ∧ ¬ t.HasSlot parent s ∧
          target.afterRemoval source = some l := Tree.exists_move_eq_error_iff hn
    rw [hnames]
    constructor
    · rintro ⟨⟨parent, s, htarget, hno, hl⟩, hnot⟩
      refine ⟨by rw [hn]; rfl, ⟨parent, s, htarget, hno⟩, hl, ?_⟩
      simp only [places, List.mem_cons, not_or] at hnot
      exact hnot.2.1
    · intro h
      obtain ⟨parent, s, rfl, hno⟩ := h.missing
      refine ⟨⟨parent, s, rfl, hno, h.shifted⟩, ?_⟩
      simp only [places, List.mem_cons, List.not_mem_nil, or_false, not_or]
      refine ⟨?_, h.moved⟩
      rintro rfl
      exact hno (Tree.hasSlot_of_afterRemoval_eq_source h.present h.shifted)

end Edit

/-- **What a failure names.** An edit that fails with a location, or with a property that the node
at a location has not, names a location that its caller passed, with one exception: a move that
finds its node, but no slot at the target, names the target as it reads once the node is
gone. A placement names its anchor or parent, and the inspection of a subtree the location of the
subtree. -/
theorem Edit.names_iff (t : Tree) :
    (∀ (e : Edit) (l : Location), e.Names t l ∧ l ∉ e.places ↔
      ∃ source target, e = .move source target ∧ Overshoots t source target l) ∧
    (∀ (p : Placement) (err : EditError) (l : Location), p.location t = .error err →
      err.place? = some l → l = p.reference) ∧
    ∀ (g : Grammar) (k : Location) (err : EditError) (l : Location),
      t.inspectAt g k = .error err → err.place? = some l → l = k := by
  refine ⟨fun e l => ⟨?_, ?_⟩, fun p err l h hl => ?_, fun g k err l h hl => ?_⟩
  · rintro ⟨hnames, hnot⟩
    by_cases hmove : ∃ source target, e = .move source target
    · obtain ⟨source, target, rfl⟩ := hmove
      exact ⟨source, target, rfl, names_move_iff.1 ⟨hnames, hnot⟩⟩
    · have hother : ∀ source target, e ≠ .move source target :=
        fun source target he => hmove ⟨source, target, he⟩
      exact absurd (mem_places_of_names hother hnames) hnot
  · rintro ⟨source, target, rfl, h⟩
    exact names_move_iff.2 h
  · rw [(Placement.location_eq_error_iff.1 h).1] at hl
    exact (Option.some.inj hl).symm
  · cases hk : t.nodeAt? k with
    | some n =>
      rw [Tree.inspectAt_of_nodeAt? g hk] at h
      cases h
    | none =>
      rw [Tree.inspectAt, Tree.nodeAt_of_none hk] at h
      cases h
      exact (Option.some.inj hl).symm

/-- In a list of two items, to move the first to the place of a fifth fails and names the place
of a fourth, which is neither location of the move. -/
theorem Edit.not_mem_places_of_names : ¬ ∀ (t : Tree) (e : Edit) (l : Location),
    e.Names t l → l ∈ e.places := by
  intro h
  have hno : ¬ (Tree.ofDescription Tree.checklist).HasSlot .root ⟨"items", 4⟩ := by
    rintro ⟨n, hn, hi⟩
    cases hn
    revert hi
    decide
  obtain ⟨hnames, hnot⟩ := Edit.names_move_iff.2 (⟨rfl, ⟨_, _, rfl, hno⟩, rfl, by decide⟩ :
    Overshoots (Tree.ofDescription Tree.checklist) (Location.root.child "items" 0)
      (Location.root.child "items" 4) (Location.root.child "items" 3))
  exact hnot (h _ _ _ hnames)

end BlockEdit
