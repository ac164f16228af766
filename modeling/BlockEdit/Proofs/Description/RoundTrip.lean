/-
What comes back of a node that is described and made anew: the node sorted
(`Description.toNode_describe`). Sorting once is enough, so that node is the
same as the first but for the order of properties and groups.
-/
import BlockEdit.Description.Node

namespace BlockEdit

namespace Entries

variable {κ α β : Type} [Ord κ]

/-- Changing all values and placing an entry commute. -/
theorem map_place (f : α → β) (es : Entries κ α) (k : κ) (a : α) :
    (es.place k a).map (fun e => (e.1, f e.2)) = place (es.map fun e => (e.1, f e.2)) k (f a) := by
  induction es with
  | nil => rfl
  | cons e es ih =>
    obtain ⟨k', a'⟩ := e
    rw [place, List.map_cons, place]
    cases compare k k' with
    | lt => rfl
    | eq => rfl
    | gt => exact congrArg _ ih

/-- The order of the entries is one of the names alone. -/
theorem map_sorted (f : α → β) (es : Entries κ α) :
    es.sorted.map (fun e => (e.1, f e.2)) = sorted (es.map fun e => (e.1, f e.2)) := by
  have go : ∀ es done : Entries κ α,
      (es.foldl (fun done e => place done e.1 e.2) done).map (fun e => (e.1, f e.2)) =
        (es.map fun e => (e.1, f e.2)).foldl (fun done e => place done e.1 e.2)
          (done.map fun e => (e.1, f e.2)) := by
    intro es
    induction es with
    | nil => intro done; rfl
    | cons e es ih =>
      intro done
      rw [List.foldl_cons, ih, map_place]
      rfl
  exact go es []

theorem sorted_sorted [Std.TransOrd κ] [Std.LawfulEqOrd κ] [DecidableEq κ] (es : Entries κ α) :
    es.sorted.sorted = es.sorted :=
  sorted_of_ascending (ascending_sorted es)

end Entries

namespace Node

theorem sorted_eq (n : Node) : n.sorted =
    ⟨n.name, Entries.sorted n.properties,
      Entries.sorted (n.groups.map fun g => (g.1, g.2.map sorted))⟩ := by
  rw [sorted, fold_eq]
  simp [Function.comp_def]

theorem describe_eq (n : Node) : n.describe =
    ⟨n.name.language, n.name.name,
      if n.properties.isEmpty then none else some (Entries.sorted n.properties),
      if n.groups.isEmpty then none
      else some (Entries.sorted (n.groups.map fun g => (g.1, g.2.map describe)))⟩ := by
  rw [describe, fold_eq]
  simp [Function.comp_def]

/-- A map that is left out where the node has nothing to put into it is read as empty. -/
theorem getD_of_isEmpty {α β : Type} {as : List α} {bs : List β} (h : as = [] → bs = []) :
    (if as.isEmpty then none else some bs).getD [] = bs := by
  cases as with
  | nil => exact (h rfl).symm
  | cons a as => rfl

/-- If all below the groups sorts alike, the groups sort alike. -/
theorem sorted_map_sorted_map {α β γ : Type} {f : α → β} {g : β → γ} {h : α → γ}
    {gs : List (String × List α)} (hchildren : ∀ e ∈ gs, ∀ c ∈ e.2, g (f c) = h c) :
    Entries.sorted ((Entries.sorted (gs.map fun e => (e.1, e.2.map f))).map
        fun e => (e.1, e.2.map g)) =
      Entries.sorted (gs.map fun e => (e.1, e.2.map h)) := by
  rw [Entries.map_sorted, Entries.sorted_sorted, List.map_map]
  refine congrArg Entries.sorted (List.map_congr_left fun e he => ?_)
  rw [Function.comp_apply, List.map_map]
  exact congrArg (Prod.mk e.1) (List.map_congr_left fun c hc => hchildren e he c hc)

/-- A node that is described and made anew is sorted. -/
theorem toNode_describe (n : Node) : n.describe.toNode = n.sorted := by
  induction n using induct with
  | step n ih =>
    have hproperties : (if n.properties.isEmpty then none
        else some (Entries.sorted n.properties)).getD [] = Entries.sorted n.properties :=
      getD_of_isEmpty fun h => by rw [h]; rfl
    have hgroups : (if n.groups.isEmpty then none
        else some (Entries.sorted (n.groups.map fun g => (g.1, g.2.map describe)))).getD [] =
          Entries.sorted (n.groups.map fun g => (g.1, g.2.map describe)) :=
      getD_of_isEmpty fun h => by rw [h]; rfl
    rw [Description.toNode_eq, sorted_eq, describe_eq]
    dsimp only
    rw [hproperties, hgroups, Entries.sorted_sorted, sorted_map_sorted_map ih]
    rfl

theorem sorted_sorted (n : Node) : n.sorted.sorted = n.sorted := by
  induction n using induct with
  | step n ih =>
    rw [sorted_eq n.sorted, sorted_eq n]
    dsimp only
    rw [Entries.sorted_sorted, sorted_map_sorted_map ih]

/-- What is described is the same as what is made of the description. -/
theorem same_toNode_describe (n : Node) : n.describe.toNode.Same n := by
  rw [Same, toNode_describe, sorted_sorted]

end Node
end BlockEdit
