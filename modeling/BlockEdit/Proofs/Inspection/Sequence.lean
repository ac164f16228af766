/-
The order of the report of a whole tree. The walk reports a node part by
part, and what is reported of a child is found in what is reported of the node,
in the same order (`Node.faults_sublist_of_enters`). So the report of every
node that is reached is a sublist of the whole report, and the order of its
parts is the order there.

Nothing is reported twice: within one part that is so by the names of the
properties and by the induction on the node, and two parts have no
fault in common (`Node.nodup_faults`).
-/
import BlockEdit.Proofs.Grammar.Reach
import BlockEdit.Proofs.Inspection.Parts
import BlockEdit.Proofs.Inspection.Subtree

namespace BlockEdit

/-! ## Nothing twice -/

theorem Shape.nodup_propertyFaults {c : Shape} {n : Node} (h : c.DeclaresOnce)
    (wf : n.WellFormed) : (c.propertyFaults n).Nodup := by
  unfold propertyFaults
  refine List.nodup_append.2 ⟨List.pairwise_filterMap.2 ?_, List.pairwise_map.2 ?_, ?_⟩
  · refine (List.pairwise_map.1 h.1).imp fun {p q} hne x hx y hy hxy => hne ?_
    have hname : x.property? = some p.name := by
      grind [Fault.Cause.property?]
    have hname' : y.property? = some q.name := by
      grind [Fault.Cause.property?]
    rw [hxy, hname'] at hname
    exact (Option.some.inj hname).symm
  · refine ((List.pairwise_map.1 wf.properties).filter _).imp fun hne h => hne ?_
    exact Fault.Cause.propertyUndeclared.inj h
  · intro x hx y hy hxy
    obtain ⟨p, -, hp⟩ := List.mem_filterMap.1 hx
    obtain ⟨e, -, rfl⟩ := List.mem_map.1 hy
    grind

theorem GroupDecl.nodup_countFaults (d : GroupDecl) (count : Nat) :
    (d.countFaults count).Nodup := by
  cases hmax : d.bounds.max with
  | none =>
    simp only [countFaults, hmax]
    split <;> simp
  | some max =>
    simp only [countFaults, hmax]
    split <;> split <;> simp

namespace Node

open Grammar (Enters)

variable {g : Grammar} {n : Node} {c : Shape} {l : Location} {p q : Part} {f f' : Fault}

theorem nodup_faultsIn {d : GroupDecl} {child : Node} (h : (child.faults g l).Nodup) :
    (child.faultsIn g d l).Nodup := by
  unfold faultsIn
  split
  · exact h
  · exact List.nodup_singleton _

/-- No part repeats anything, if no child does. -/
theorem nodup_reportOf (hc : c.DeclaresOnce) (wf : n.WellFormed)
    (hchildren : ∀ s child, n.child? s = some child → ∀ l, (child.faults g l).Nodup) :
    (n.reportOf g c l p).Nodup := by
  have hmk : Function.Injective (Fault.mk l) := fun _ _ h => (Fault.mk.inj h).2
  cases p with
  | properties => exact (Shape.nodup_propertyFaults hc wf).map hmk
  | group name =>
    rw [reportOf]
    split
    · next d hd => exact (d.nodup_countFaults _).map hmk
    · exact List.nodup_singleton _
  | child s =>
    rw [reportOf]
    split
    · exact List.nodup_nil
    · next child hchild =>
      split
      · exact nodup_faultsIn (hchildren s child hchild _)
      · exact hchildren s child hchild _

theorem nodup_faults (hg : g.DeclaresOnce) (wf : n.WellFormed) (l : Location) :
    (n.faults g l).Nodup := by
  induction n using induct_childrenOf generalizing l with
  | step n ih =>
    cases hd : g.defines n.name with
    | false =>
      rw [faults_of_undefined hd]
      exact List.nodup_singleton _
    | true =>
    cases hs : g.shapeOf? n with
    | none =>
      rw [faults_of_shapeOf?_eq_none hd hs]
      exact List.nodup_singleton _
    | some c =>
      -- a fault belongs to one part at most, so the parts can be looked at one by one
      have hc := hg.shapeOf? hs
      rw [faults_eq_flatMap_parts hs hc wf]
      refine nodup_flatMap_of_parts (nodup_parts hc wf) (fun p _ => nodup_reportOf hc wf ?_)
        (fun p f => covers_of_mem_reportOf) fun p q f => Part.eq_of_covers
      intro s child hchild l
      have hmem : child ∈ n.childrenOf s.group := List.mem_of_getElem? hchild
      exact ih s.group child hmem (wf.childrenOf hmem) l

/-! ## One node -/

section
variable (hs : g.shapeOf? n = some c) (hg : g.DeclaresOnce) (wf : n.WellFormed)
include hs hg wf

/-- A fault is reported in the part that it belongs to. -/
theorem mem_reportOf_of_covers (hf : f ∈ n.faults g l) (hp : p.Covers l f) :
    p ∈ n.parts c ∧ f ∈ n.reportOf g c l p := by
  rw [faults_eq_flatMap_parts hs (hg.shapeOf? hs) wf] at hf
  obtain ⟨q, hq, hf⟩ := List.mem_flatMap.1 hf
  obtain rfl := Part.eq_of_covers hp (covers_of_mem_reportOf hf)
  exact ⟨hq, hf⟩

theorem precedes_of_ahead (hf : f ∈ n.faults g l) (hf' : f' ∈ n.faults g l) (hp : p.Covers l f)
    (hq : q.Covers l f') (h : p.Ahead c n q) : Precedes (n.faults g l) f f' := by
  obtain ⟨hp, hf⟩ := mem_reportOf_of_covers hs hg wf hf hp
  obtain ⟨hq, hf'⟩ := mem_reportOf_of_covers hs hg wf hf' hq
  rw [faults_eq_flatMap_parts hs (hg.shapeOf? hs) wf]
  exact (h.precedes hp hq).flatMap hf hf'

theorem ahead_or_ahead_of_mem_faults (hf : f ∈ n.faults g l) (hf' : f' ∈ n.faults g l)
    (hp : p.Covers l f) (hq : q.Covers l f') (hne : p ≠ q) : p.Ahead c n q ∨ q.Ahead c n p :=
  Part.ahead_or_ahead (mem_reportOf_of_covers hs hg wf hf hp).1
    (mem_reportOf_of_covers hs hg wf hf' hq).1 hne

/-- Only a group that is not declared is reported as not declared. -/
theorem groupUndeclared_iff_of_mem_faults {name : String} (hf : f ∈ n.faults g l)
    (hl : f.location = l) (hname : f.cause.group? = some name) :
    f.cause = .groupUndeclared name ↔ name ∉ c.groupNames := by
  have hmem := (mem_reportOf_of_covers (p := .group name) hs hg wf hf ⟨hl, hname⟩).2
  rw [← Shape.group?_isSome_iff_mem_groupNames]
  rw [reportOf] at hmem
  split at hmem
  · next d hd =>
    obtain ⟨cause, hcause, rfl⟩ := List.mem_map.1 hmem
    rw [hd]
    rcases GroupDecl.mem_countFaults_iff.1 hcause with ⟨_, -, -, rfl⟩ | ⟨_, -, -, rfl⟩ <;> simp
  · next hd =>
    cases List.mem_singleton.1 hmem
    simp [hd]

end

/-- What is reported of a child that the walk enters is reported of the node in the same order. -/
theorem faults_sublist_of_enters (hg : g.DeclaresOnce) (wf : n.WellFormed) {s : Step} {child : Node}
    (h : Enters g n s child) :
    (child.faults g (l.child s.group s.index)).Sublist (n.faults g l) := by
  obtain ⟨hchild, c, hs, henters⟩ := h
  have hc := hg.shapeOf? hs
  have hindex : s.index < (n.childrenOf s.group).length := by
    obtain ⟨hlt, -⟩ := List.getElem?_eq_some_iff.1 hchild
    exact hlt
  have hreport : n.reportOf g c l (.child s) = child.faults g (l.child s.group s.index) := by
    rcases henters with hnot | ⟨d, hd, hname, hadm⟩
    · exact reportOf_child_of_group?_eq_none hchild (Shape.group?_eq_none_iff.2 hnot)
    · have hdecl := Shape.group?_of_mem hc hd
      rw [hname] at hdecl
      rw [reportOf_child_of_group? hchild hdecl, faultsIn, if_pos hadm]
  have horder : s.group ∈ c.groupOrder n := by
    rw [Shape.mem_groupOrder_iff]
    by_cases hdecl : s.group ∈ c.groupNames
    · exact .inl hdecl
    · exact .inr ⟨hdecl, Entries.has_iff.1 (hasGroup_of_child? hchild)⟩
  have hpart : .child s ∈ n.parts c :=
    (mem_parts_iff rfl).2 ⟨horder, child_mem_groupParts_iff.2 ⟨rfl, hindex⟩⟩
  rw [← hreport, faults_eq_flatMap_parts hs hc wf, List.flatMap_def]
  exact List.sublist_flatten_of_mem (List.mem_map_of_mem hpart)

/-- What belongs to a part is reported only of a node that has a shape. -/
theorem exists_shapeOf?_of_covers (hf : f ∈ n.faults g l) (hp : p.Covers l f) :
    ∃ c, g.shapeOf? n = some c := by
  cases hs : g.shapeOf? n with
  | some c => exact ⟨c, rfl⟩
  | none =>
    cases hd : g.defines n.name with
    | false =>
      rw [faults_of_undefined hd] at hf
      exact absurd (List.mem_singleton.1 hf) (hp.ne rfl rfl)
    | true =>
      rw [faults_of_shapeOf?_eq_none hd hs] at hf
      exact absurd (List.mem_singleton.1 hf) (hp.ne rfl rfl)

end Node

/-! ## The whole tree -/

namespace Tree

variable {t : Tree} {g : Grammar} {l : Location} {n : Node} {p q : Part} {f f' : Fault}

/-- What is reported of a node that is reached is reported of the tree in the same order. -/
theorem Reaches.faults_sublist (hg : g.DeclaresOnce) (h : t.Reaches g l n) :
    (n.faults g l).Sublist (t.faults g) := by
  obtain ⟨root, hr, hv⟩ := h
  induction hv with
  | top =>
    rw [faults, hr]
    exact List.sublist_append_right ..
  | child above enters ih =>
    have wf := wellFormed_of_nodeAt? (Reaches.nodeAt? ⟨root, hr, above⟩)
    exact (Node.faults_sublist_of_enters hg wf enters).trans ih

/-- What belongs to a part is reported of a node that is reached. -/
theorem exists_reaches_of_covers (hf : f ∈ t.faults g) (hp : p.Covers l f) :
    ∃ n, t.Reaches g l n ∧ f ∈ n.faults g l := by
  rcases (mem_faults_iff.1 hf).within_cases hp.contains with h | ⟨group, type, h⟩ |
    ⟨expected, present, rfl, h⟩
  · exact h
  · exact absurd h (hp.ne rfl rfl)
  · exact absurd h (hp.ne rfl rfl)

theorem nodup_faults (hg : g.DeclaresOnce) (t : Tree) : (t.faults g).Nodup := by
  rw [faults]
  cases hr : t.root with
  | none => exact List.nodup_nil
  | some root =>
    have wf := t.wellFormed root (by rw [hr]; rfl)
    refine List.nodup_append.2 ⟨?_, Node.nodup_faults hg wf .root, ?_⟩
    · unfold rootFaults
      split
      · split <;> simp
      · exact List.nodup_nil
    · rintro f hf f' hf' rfl
      obtain ⟨expected, -, -, rfl⟩ := mem_rootFaults_iff.1 hf
      exact Node.not_isRefusal_of_mem_faults wf hf' rfl trivial

/-- That the root is refused is reported first. -/
theorem head?_of_rootRefused {expected present : TypeName}
    (h : ⟨l, .rootRefused expected present⟩ ∈ t.faults g) :
    (t.faults g).head? = some ⟨l, .rootRefused expected present⟩ := by
  rw [faults] at h ⊢
  cases hr : t.root with
  | none => simp [hr] at h
  | some root =>
    rw [hr] at h
    rcases List.mem_append.1 h with h | h
    · obtain ⟨_, hwanted, hrefused, heq⟩ := mem_rootFaults_iff.1 h
      cases heq
      simp [rootFaults, hwanted, hrefused]
    · have wf := t.wellFormed root (by rw [hr]; rfl)
      obtain ⟨_, _, -, rule⟩ := (Node.mem_faults_iff wf).1 h
      cases rule

/-- Two faults of different parts stand in the order of the parts. -/
theorem precedes_iff_ahead (hg : g.DeclaresOnce) (hf : f ∈ t.faults g) (hf' : f' ∈ t.faults g)
    (hp : p.Covers l f) (hq : q.Covers l f') : ∃ n c, t.nodeAt? l = some n ∧
      g.shapeOf? n = some c ∧
      (∀ name, p = .group name → (f.cause = .groupUndeclared name ↔ name ∉ c.groupNames)) ∧
      (p ≠ q → (Precedes (t.faults g) f f' ↔ p.Ahead c n q)) := by
  obtain ⟨n, hn, hf⟩ := exists_reaches_of_covers hf hp
  obtain ⟨n', hn', hf'⟩ := exists_reaches_of_covers hf' hq
  obtain rfl : n = n' := Option.some.inj (hn.nodeAt?.symm.trans hn'.nodeAt?)
  have wf := wellFormed_of_nodeAt? hn.nodeAt?
  have hsub := hn.faults_sublist hg
  obtain ⟨c, hs⟩ := Node.exists_shapeOf?_of_covers hf hp
  refine ⟨n, c, hn.nodeAt?, hs, ?_, fun hne => ⟨fun h => ?_, fun h => ?_⟩⟩
  · rintro name rfl
    exact Node.groupUndeclared_iff_of_mem_faults hs hg wf hf hp.1 hp.2
  · -- were the parts the other way around, the faults would be so as well
    refine (Node.ahead_or_ahead_of_mem_faults hs hg wf hf hf' hp hq hne).resolve_right fun h' => ?_
    have hother := (Node.precedes_of_ahead hs hg wf hf' hf hq hp h').of_sublist hsub
    exact h.asymm (nodup_faults hg t) hother
  · exact (Node.precedes_of_ahead hs hg wf hf hf' hp hq h).of_sublist hsub

/-- **The order of a report**, if no type declares a name twice. No fault is reported twice. That
the root is refused comes first. What is wrong with the properties of a node comes ahead of all
that is wrong below the node. And all that is reported of and below a node comes part by part,
in this order: the properties; then, group by group, what is wrong with the group as a whole and
what is wrong with and below each of its children, by index. The declared groups come first, in the
order of declaration, and then those that are not declared, in the order of the node. -/
theorem inspect_in_order (hg : g.DeclaresOnce) (t : Tree) :
    (t.inspect g).value.Nodup ∧
    (∀ l expected present, ⟨l, .rootRefused expected present⟩ ∈ (t.inspect g).value →
      (t.inspect g).value.head? = some ⟨l, .rootRefused expected present⟩) ∧
    (∀ f f', f ∈ (t.inspect g).value → f' ∈ (t.inspect g).value →
      f.cause.property?.isSome = true → f.location.contains f'.location = true →
      f'.location ≠ f.location → Precedes (t.inspect g).value f f') ∧
    ∀ (l : Location) (p q : Part) (f f' : Fault), f ∈ (t.inspect g).value →
      f' ∈ (t.inspect g).value → p.Covers l f → q.Covers l f' → ∃ n c,
        t.nodeAt? l = some n ∧ g.shapeOf? n = some c ∧
        (∀ name, p = .group name → (f.cause = .groupUndeclared name ↔ name ∉ c.groupNames)) ∧
        (p ≠ q → (Precedes (t.inspect g).value f f' ↔ p.Ahead c n q)) := by
  refine ⟨nodup_faults hg t, fun l expected present => head?_of_rootRefused,
    fun f f' hf hf' hproperty hl hne => ?_, fun l p q f f' => precedes_iff_ahead hg⟩
  obtain ⟨s, hs⟩ := Part.exists_child_covers hl hne
  have hproperties : Part.properties.Covers f.location f := ⟨rfl, hproperty⟩
  obtain ⟨n, c, -, -, -, horder⟩ := precedes_iff_ahead hg hf hf' hproperties hs
  exact (horder nofun).2 (.properties nofun)

/-- The hotel among the stops of a trip is refused ahead of all that is said of the notes, which
no trip has. -/
theorem inspect_in_order_of_roughTrip :
    tripGrammar.DeclaresOnce ∧
    Precedes ((ofDescription roughTrip).inspect tripGrammar).value
      ⟨Location.root.child "stops" 0, .childRefused "stops" ⟨"travel", "hotel"⟩⟩
      ⟨Location.root.child "notes" 0, .propertyMissing "place"⟩ := by
  have honce : tripGrammar.DeclaresOnce := by
    intro name c hc
    have hmem := Entries.mem_of_get? (Grammar.shape?_eq_some_iff.1 hc)
    simp only [tripGrammar, List.mem_cons, List.not_mem_nil, or_false, Prod.mk.injEq,
      TypeDef.concrete.injEq] at hmem
    rcases hmem with ⟨-, rfl⟩ | ⟨-, rfl⟩
    · decide
    · decide
  refine ⟨honce, ?_⟩
  obtain ⟨n, c, hn, hs, -, horder⟩ := (inspect_in_order honce (ofDescription roughTrip)).2.2.2 .root
    (.child ⟨"stops", 0⟩) (.child ⟨"notes", 0⟩)
    ⟨Location.root.child "stops" 0, .childRefused "stops" ⟨"travel", "hotel"⟩⟩
    ⟨Location.root.child "notes" 0, .propertyMissing "place"⟩
    (by decide +kernel) (by decide +kernel) rfl rfl
  cases hn
  have hshape : tripGrammar.shapeOf? roughTrip.toNode =
      some ⟨[.group ⟨"stops", .sequence, [⟨"travel", "stop"⟩], .unbounded⟩]⟩ := rfl
  rw [hshape] at hs
  cases hs
  exact (horder (by decide)).2 (.groups rfl rfl (.declaredFirst (by decide) (by decide)))

end Tree
end BlockEdit
