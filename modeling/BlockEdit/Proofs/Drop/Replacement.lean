/-
Replacing a node, against taking it out and inserting another where it was.
The one edit writes to a single place; the other two change the list of
children twice, and the root is a case of its own for both of them. They come
to the same tree, order included, or to the same error
(`Tree.replace_eq_delete_insert`).

So it is one question whether a cargo may replace a node and whether it may be
dropped where the node was, once that is gone.
-/
import BlockEdit.Drop.Slot
import BlockEdit.Proofs.Drop.Placement
import BlockEdit.Proofs.Tree.Arrival
import BlockEdit.Proofs.Tree.Edits

namespace BlockEdit.Tree

variable {t t₁ : Tree} {l : Location} {d : Description} {g : Grammar} {cargo : Cargo}

/-! ## Where there is nothing -/

theorem replace_of_nodeAt?_eq_none (h : t.nodeAt? l = none) (d : Description) :
    t.replace l d = .error (.noSuchLocation l) := by
  rw [replace]
  exact modifyAt_eq_error_iff.2 (.inl ⟨h, rfl⟩)

theorem delete_of_nodeAt?_eq_none (h : t.nodeAt? l = none) :
    t.delete l = .error (.noSuchLocation l) := by
  cases hdelete : t.delete l with
  | ok t₁ =>
    have hthere := exists_delete_iff.1 ⟨t₁, hdelete⟩
    rw [h] at hthere
    cases hthere
  | error e =>
    rw [delete] at hdelete
    split at hdelete
    · rw [nodeAt_of_none h] at hdelete
      cases hdelete
      rfl
    · rcases modifyAt_eq_error_iff.1 hdelete with ⟨-, rfl⟩ | ⟨n, -, hn⟩
      · rfl
      · rw [(orFail_eq_error_iff.1 hn).2]

/-! ## Where there is a node -/

/-- What is there can be replaced. -/
theorem exists_replace_iff : (∃ t', t.replace l d = .ok t') ↔ (t.nodeAt? l).isSome := by
  constructor
  · rintro ⟨t', h⟩
    obtain ⟨n, hn, -⟩ := replace_eq_ok_iff.1 h
    rw [hn]
    rfl
  · intro h
    obtain ⟨n, hn⟩ := Option.isSome_iff_exists.1 h
    exact ⟨t.putAt l d.toNode d.wellFormed_toNode, replace_eq_ok_iff.2 ⟨n, hn, rfl⟩⟩

/-- Without its root a tree is empty, and any root can be inserted. -/
theorem insert_of_delete_root (h : t.delete .root = .ok t₁) (d : Description) :
    t₁.insert .root d = t.replace .root d := by
  obtain ⟨n, hn⟩ := Option.isSome_iff_exists.1 (exists_delete_iff.1 ⟨t₁, h⟩)
  rw [delete_root, nodeAt_of_some hn] at h
  cases h
  refine (replace_eq_ok_iff.2 ⟨n, hn, ?_⟩).symm
  obtain ⟨root, hr, -⟩ := nodeAt?_eq_some_iff.1 hn
  rw [hr]
  rfl

/-- What is inserted where a node was taken out replaces that node. -/
theorem insert_eq_replace_of_delete (h : t.delete l = .ok t₁) (d : Description) :
    t₁.insert l d = t.replace l d := by
  rcases l.eq_root_or_exists_child with rfl | ⟨parent, s, rfl⟩
  · exact insert_of_delete_root h d
  · obtain ⟨n, hn⟩ := Option.isSome_iff_exists.1 (exists_delete_iff.1 ⟨t₁, h⟩)
    obtain ⟨t', hinsert, hroot⟩ := insert_of_delete h d
    rw [hinsert, replace_eq_ok_iff.2 ⟨n, hn, hroot⟩]

/-! ## Either way -/

theorem replace_eq_bind (t : Tree) (l : Location) (d : Description) :
    t.replace l d = t.delete l >>= fun t₁ => t₁.insert l d := by
  cases hn : t.nodeAt? l with
  | none =>
    rw [replace_of_nodeAt?_eq_none hn, delete_of_nodeAt?_eq_none hn]
    rfl
  | some n =>
    obtain ⟨t₁, hdelete⟩ := exists_delete_iff.2 (Option.isSome_iff_exists.2 ⟨n, hn⟩)
    rw [hdelete]
    exact (insert_eq_replace_of_delete hdelete d).symm

theorem insertLeavesValid_of_delete (h : t.delete l = .ok t₁) :
    t₁.insertLeavesValid g l cargo = t.replaceLeavesValid g l cargo := by
  rw [insertLeavesValid, replaceLeavesValid]
  simp only [insert_eq_replace_of_delete h]

/-- A replacement that leaves a valid tree has a node to replace. -/
theorem isSome_nodeAt?_of_replaceLeavesValid (h : t.replaceLeavesValid g l cargo = true) :
    (t.nodeAt? l).isSome := by
  obtain ⟨d, -, hvalid⟩ := List.any_eq_true.1 h
  cases hreplace : t.replace l d with
  | ok t' => exact exists_replace_iff.1 ⟨t', hreplace⟩
  | error e =>
    rw [hreplace] at hvalid
    cases hvalid

/-- **Replacing is deleting and inserting.** The result is the same tree, order included, or the
same error, at the root as elsewhere; what is there, and only that, can be replaced. So some form
of a cargo can replace a node and leave a valid tree just when the node is there and some form can
be dropped where it was, once it is gone, and leave a valid tree. -/
theorem replace_eq_delete_insert (t : Tree) (l : Location) :
    (∀ d, t.replace l d = t.delete l >>= fun t₁ => t₁.insert l d) ∧
    (∀ d, (∃ t', t.replace l d = .ok t') ↔ (t.nodeAt? l).isSome) ∧
    ∀ (g : Grammar) (cargo : Cargo), t.replaceLeavesValid g l cargo = true ↔
      (t.nodeAt? l).isSome ∧
        ∃ t₁, t.delete l = .ok t₁ ∧ t₁.insertLeavesValid g l cargo = true := by
  refine ⟨replace_eq_bind t l, fun d => exists_replace_iff, fun g cargo => ?_⟩
  constructor
  · intro h
    have hthere := isSome_nodeAt?_of_replaceLeavesValid h
    obtain ⟨t₁, hdelete⟩ := exists_delete_iff.2 hthere
    exact ⟨hthere, t₁, hdelete, (insertLeavesValid_of_delete hdelete).trans h⟩
  · rintro ⟨-, t₁, hdelete, h⟩
    exact (insertLeavesValid_of_delete hdelete).symm.trans h

end BlockEdit.Tree
