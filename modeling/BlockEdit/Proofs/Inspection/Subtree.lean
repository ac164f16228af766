/-
The report of a subtree against that of the whole tree. A walk that comes to
a node goes on from there as one that starts there, and a walk comes to what
is below a node through the node itself (`Grammar.Visits.through`). So where
the walk from the root comes to a location, the two reports agree below it
(`Tree.within_inspect_iff_inspectAt`).

They differ in one point: that a group refuses a node, or that the grammar
wants another root, is reported on the node, but by the walk that comes from
above. Where the walk from the root does not come, such a refusal is all
that the whole report may have.
-/
import BlockEdit.Proofs.Inspection.Exactness
import BlockEdit.Proofs.Inspection.Relocation
import BlockEdit.Proofs.Location.Removal

namespace BlockEdit

/-- The node does not belong where it stands, whatever it is itself. -/
def Fault.Cause.IsRefusal : Fault.Cause → Prop
  | .childRefused .. | .rootRefused .. => True
  | _ => False

namespace Grammar

variable {g : Grammar} {top n m : Node} {start l k : Location} {f : Fault}

/-- From a node that is visited the walk goes on as one that starts there. -/
theorem Visits.trans (h : g.Visits top start l n) (h' : g.Visits n l k m) :
    g.Visits top start k m := by
  induction h' with
  | top => exact h
  | child above enters ih => exact ih.child enters

/-- The walk to what is below a location comes to a node at the location first. -/
theorem Visits.through {path rest : List Step}
    (h : g.Visits top start (start.along (path ++ rest)) n) :
    ∃ m, g.Visits top start (start.along path) m ∧
      g.Visits m (start.along path) (start.along (path ++ rest)) n := by
  induction path generalizing top start with
  | nil =>
    rw [Location.along_nil]
    exact ⟨top, .top, h⟩
  | cons s path ih =>
    rcases visits_iff.1 h with ⟨hl, -⟩ | ⟨s', child, henters, hv⟩
    · have hnil : s :: path ++ rest = [] :=
        start.along_injective (hl.trans start.along_nil.symm)
      cases hnil
    · obtain ⟨path', hl, -⟩ := hv.at?
      rw [Location.along_child] at hl
      obtain ⟨rfl, -⟩ := List.cons.inj (start.along_injective hl)
      rw [List.cons_append, ← Location.along_child] at hv ⊢
      rw [← Location.along_child]
      obtain ⟨m, hm, hrest⟩ := ih hv
      exact ⟨m, visits_iff.2 (.inr ⟨s, child, henters, hm⟩), hrest⟩

/-- What a rule says of a node is reported on the node and is no refusal, or it is the refusal
of a child. -/
theorem FaultAt.on_or_refused (h : g.FaultAt n l f) :
    (f.location = l ∧ ¬ f.cause.IsRefusal) ∨
      ∃ group i type, f = ⟨l.child group i, .childRefused group type⟩ := by
  cases h with
  | childRefused shape declared present refused => exact .inr ⟨_, _, _, rfl⟩
  | _ => exact .inl ⟨rfl, id⟩

end Grammar

namespace Node

variable {g : Grammar} {n : Node} {l : Location} {f : Fault}

/-- An inspection does not ask whether the node that it starts at belongs there. -/
theorem not_isRefusal_of_mem_faults (wf : n.WellFormed) (h : f ∈ n.faults g l)
    (hl : f.location = l) : ¬ f.cause.IsRefusal := by
  obtain ⟨k, m, hv, hf⟩ := (mem_faults_iff wf).1 h
  rcases hf.on_or_refused with ⟨-, hnot⟩ | ⟨group, i, type, rfl⟩
  · exact hnot
  · obtain ⟨path, rfl, -⟩ := hv.at?
    have habove := Location.child_not_contains (l.along path) ⟨group, i⟩
    dsimp only at hl habove
    rw [hl, Location.contains_iff_exists_along.2 ⟨path, rfl⟩] at habove
    cases habove

end Node

namespace Tree

variable {t : Tree} {g : Grammar} {l : Location} {n m : Node} {f : Fault}

/-- What is reached below a location is reached through it. -/
theorem Reaches.through {path : List Step} (h : t.Reaches g (l.along path) m) :
    ∃ n, t.Reaches g l n ∧ g.Visits n l (l.along path) m := by
  obtain ⟨root, hr, hv⟩ := h
  have hroot : ∀ path, Location.root.along (l.steps ++ path) = l.along path := fun _ => rfl
  rw [← hroot path] at hv ⊢
  obtain ⟨n, hn, hrest⟩ := hv.through
  exact ⟨n, ⟨root, hr, hn⟩, hrest⟩

/-- What is wrong within a location is found by a walk that starts there, unless it is that the
node there does not belong there. -/
theorem Disagrees.within_cases (h : t.Disagrees g f) (hl : l.contains f.location = true) :
    (∃ n, t.Reaches g l n ∧ f ∈ n.faults g l) ∨
    (∃ group type, f = ⟨l, .childRefused group type⟩) ∨
    ∃ expected present, l = .root ∧ f = ⟨.root, .rootRefused expected present⟩ := by
  cases h with
  | root present wanted refused =>
    have hroot : l = .root := by
      obtain ⟨steps⟩ := l
      exact congrArg Location.mk (List.prefix_nil.1 (Location.contains_iff.1 hl))
    exact .inr (.inr ⟨_, _, hroot, rfl⟩)
  | @node k m f reached rule =>
    cases hk : l.contains k with
    | true =>
      obtain ⟨path, rfl⟩ := Location.contains_iff_exists_along.1 hk
      obtain ⟨n, hn, hv⟩ := reached.through
      have wf := wellFormed_of_nodeAt? hn.nodeAt?
      exact .inl ⟨n, hn, (Node.mem_faults_iff wf).2 ⟨_, m, hv, rule⟩⟩
    | false =>
      -- the fault is reported below `k`, so it is the refusal of a child of `k`
      rcases rule.on_or_refused with ⟨hon, -⟩ | ⟨group, i, type, rfl⟩
      · rw [hon, hk] at hl
        cases hl
      · rcases Location.eq_or_contains_of_contains_child (s := ⟨group, i⟩) hl with rfl | habove
        · exact .inr (.inl ⟨group, type, rfl⟩)
        · rw [hk] at habove
          cases habove

/-- What is found by a walk from a node that is reached is wrong in the whole tree. -/
theorem Reaches.disagrees (h : t.Reaches g l n) (hf : f ∈ n.faults g l) : t.Disagrees g f := by
  obtain ⟨root, hr, hn⟩ := h
  have wf := t.wellFormed_of_nodeAt? (Reaches.nodeAt? ⟨root, hr, hn⟩)
  obtain ⟨k, m, hv, rule⟩ := (Node.mem_faults_iff wf).1 hf
  exact .node ⟨root, hr, hn.trans hv⟩ rule

theorem mem_within_inspect_iff : f ∈ Fault.within (t.inspect g).value l ↔
    t.Disagrees g f ∧ l.contains f.location = true := by
  rw [Fault.within, List.mem_filter]
  exact and_congr_left fun _ => mem_faults_iff

/-- **One place in two reports.** A node can be inspected by itself. If the inspection of the
whole tree reaches it, what that has to say within its subtree is just what its own inspection
says, at the same locations; apart only from a refusal of the node where it stands, which is
for the inspection from above to say. If it is not reached, the inspection of the whole tree
has nothing to say within the subtree but that its parent refuses the node. -/
theorem within_inspect_iff_inspectAt (g : Grammar) (hn : t.nodeAt? l = some n) :
    ∃ report, t.inspectAt g l = .ok report ∧
      (t.Reaches g l n → ∀ f, (f ∈ Fault.within (t.inspect g).value l ∧
        ¬ (f.location = l ∧ f.cause.IsRefusal)) ↔ f ∈ report.value) ∧
      (¬ t.Reaches g l n → ∀ f ∈ Fault.within (t.inspect g).value l,
        f.location = l ∧ ∃ group type, f.cause = .childRefused group type) := by
  have here : ∀ {m}, t.Reaches g l m → m = n := fun hm =>
    Option.some.inj (hm.nodeAt?.symm.trans hn)
  refine ⟨_, inspectAt_of_nodeAt? g hn, fun hreached f => ?_, fun hnot f hf => ?_⟩
  · rw [mem_within_inspect_iff]
    constructor
    · rintro ⟨⟨hwrong, hl⟩, hbelongs⟩
      rcases hwrong.within_cases hl with ⟨m, hm, hf⟩ | ⟨group, type, rfl⟩ | ⟨_, _, rfl, rfl⟩
      · exact here hm ▸ hf
      · exact absurd ⟨rfl, trivial⟩ hbelongs
      · exact absurd ⟨rfl, trivial⟩ hbelongs
    · intro hf
      refine ⟨⟨hreached.disagrees hf, Node.contains_of_mem_faults hf⟩, fun h => ?_⟩
      exact Node.not_isRefusal_of_mem_faults (wellFormed_of_nodeAt? hn) hf h.1 h.2
  · obtain ⟨hwrong, hl⟩ := mem_within_inspect_iff.1 hf
    rcases hwrong.within_cases hl with ⟨m, hm, -⟩ | ⟨group, type, rfl⟩ | ⟨_, _, rfl, -⟩
    · exact absurd (here hm ▸ hm) hnot
    · exact ⟨rfl, group, type, rfl⟩
    · obtain ⟨root, hr, hat⟩ := Option.bind_eq_some_iff.1 hn
      cases hat
      exact absurd ⟨_, hr, .top⟩ hnot

/-- A trip has stops, and a stop has a place. -/
def tripGrammar : Grammar where
  types := [
    (⟨"travel", "stop"⟩, .concrete ⟨[.property ⟨"place", .text, false⟩]⟩),
    (⟨"travel", "trip"⟩,
      .concrete ⟨[.group ⟨"stops", .sequence, [⟨"travel", "stop"⟩], .unbounded⟩]⟩)]
  root := none

/-- A trip with a hotel, of which nothing is known, for a stop, and with a stop among notes, which
no trip has. -/
def roughTrip : Description :=
  ⟨"travel", "trip", none, some [("notes", [⟨"travel", "stop", none, none⟩]),
    ("stops", [⟨"travel", "hotel", none, none⟩])]⟩

/-- The walk goes into the notes, and what is reported there is what is reported of the stop by
itself. The hotel is refused, and that its type is not defined is reported of it by itself only. -/
theorem within_inspect_of_roughTrip :
    ((ofDescription roughTrip).nodeAt? (Location.root.child "notes" 0)).isSome ∧
    (∃ report, (ofDescription roughTrip).inspectAt tripGrammar (Location.root.child "notes" 0) =
        .ok report ∧
      ⟨Location.root.child "notes" 0, .propertyMissing "place"⟩ ∈ report.value ∧
      ∀ f ∈ report.value, f ∈ ((ofDescription roughTrip).inspect tripGrammar).value) ∧
    ∀ f ∈ Fault.within ((ofDescription roughTrip).inspect tripGrammar).value
        (Location.root.child "stops" 0), ∃ group type, f.cause = .childRefused group type := by
  have hnote : (ofDescription roughTrip).nodeAt? (Location.root.child "notes" 0) =
      some (.leaf ⟨"travel", "stop"⟩) := rfl
  have hstop : (ofDescription roughTrip).nodeAt? (Location.root.child "stops" 0) =
      some (.leaf ⟨"travel", "hotel"⟩) := rfl
  obtain ⟨report, hreport, hreached, -⟩ := within_inspect_iff_inspectAt tripGrammar hnote
  obtain ⟨-, -, -, hcut⟩ := within_inspect_iff_inspectAt tripGrammar hstop
  have hvisited : (ofDescription roughTrip).Reaches tripGrammar (Location.root.child "notes" 0)
      (.leaf ⟨"travel", "stop"⟩) :=
    ⟨roughTrip.toNode, rfl, .child (s := ⟨"notes", 0⟩) .top
      ⟨rfl, ⟨[.group ⟨"stops", .sequence, [⟨"travel", "stop"⟩], .unbounded⟩]⟩, rfl,
        .inl (by decide)⟩⟩
  have hnot : ¬ (ofDescription roughTrip).Reaches tripGrammar (Location.root.child "stops" 0)
      (.leaf ⟨"travel", "hotel"⟩) := by
    intro h
    have hmem : _ ∈ ((ofDescription roughTrip).inspect tripGrammar).value :=
      mem_faults_iff.2 (.node h (.undefinedType rfl))
    exact absurd hmem (by decide +kernel)
  have hmissing : ⟨Location.root.child "notes" 0, .propertyMissing "place"⟩ ∈ report.value := by
    rw [inspectAt_of_nodeAt? tripGrammar hnote] at hreport
    cases hreport
    decide +kernel
  refine ⟨rfl, ⟨report, hreport, hmissing, fun f hf => ?_⟩, fun f hf => (hcut hnot f hf).2⟩
  exact (List.mem_filter.1 ((hreached hvisited f).2 hf).1).1

end Tree
end BlockEdit
