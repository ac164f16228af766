/-
When the specification of a type makes sense by itself: an alternative type
lists a member; an attribute of a concrete type has a name, unless it is
concrete syntax, and a group can hold as many children as it has to. Just such
specifications make a type (`TypeSpec.exists_toTypeDef_iff`). For any other
the first attribute that makes no sense says what is wrong
(`TypeSpec.toTypeDef_eq_error_iff`). The types that are referred to are those of
the specification, in its order (`TypeSpec.references_of_toTypeDef`), and what
the form of the specification does not use has no part in this.
-/
import BlockEdit.Grammar.Resolution
import BlockEdit.Proofs.FirstFailure

namespace BlockEdit

/-! ## Attributes -/

/-- Whether attributes of this form hold children. -/
def AttributeForm.isGroup : AttributeForm → Bool
  | sequence | allowed | choice => true
  | property | terminal => false

/-- How many children a group holds where nothing is said of it. -/
def AttributeForm.usualBounds : AttributeForm → Bounds
  | choice => .single
  | _ => .unbounded

namespace AttributeSpec

/-- The bounds of a group: those that are given, and else the usual ones. -/
def groupBounds (d : AttributeSpec) : Bounds := d.bounds d.kind.usualBounds

structure WellFormed (d : AttributeSpec) : Prop where
  named : d.kind ≠ .terminal → d.name ≠ none
  satisfiable : d.kind.isGroup = true → d.groupBounds.Satisfiable

/-- What is wrong with an attribute of the type. -/
inductive Fails (owner : TypeName) (d : AttributeSpec) : Malformation → Prop where
  | unnamed (kind : d.kind ≠ .terminal) (name : d.name = none) :
      Fails owner d (.unnamedAttribute d.kind owner)
  | minAboveMax {name : String} (kind : d.kind.isGroup = true) (named : d.name = some name)
      (bounds : ¬ d.groupBounds.Satisfiable) : Fails owner d (.minAboveMax name owner)

variable {owner : TypeName} {d : AttributeSpec} {a : Attribute} {cause : Malformation}

theorem toGroup_eq_ok_iff {kind : Arrangement} {default : Bounds} :
    d.toGroup owner kind default = .ok a ↔ ∃ name, d.name = some name ∧
      (d.bounds default).Satisfiable ∧
      a = .group { name, kind, childTypes := d.types, bounds := d.bounds default } := by
  rw [toGroup, requiredName]
  cases d.name with
  | none => simp [bind, Except.bind]
  | some name =>
    simp only [bind, Except.bind]
    split
    · next h => simp [Bounds.satisfiable_iff, h]
    · next h => simp [Bounds.satisfiable_iff, h, eq_comm]

theorem toGroup_eq_error_iff {kind : Arrangement} {default : Bounds} :
    d.toGroup owner kind default = .error cause ↔
      (d.name = none ∧ cause = .unnamedAttribute d.kind owner) ∨
        ∃ name, d.name = some name ∧ ¬ (d.bounds default).Satisfiable ∧
          cause = .minAboveMax name owner := by
  rw [toGroup, requiredName]
  cases d.name with
  | none => simp [bind, Except.bind, eq_comm]
  | some name =>
    simp only [bind, Except.bind]
    split
    · next h => simp [Bounds.satisfiable_iff, h, eq_comm]
    · next h => simp [Bounds.satisfiable_iff, h]

/-- Groups of all forms are made alike. -/
theorem toAttribute_of_isGroup (owner : TypeName) (h : d.kind.isGroup = true) :
    ∃ kind, d.toAttribute owner = d.toGroup owner kind d.kind.usualBounds := by
  rw [toAttribute]
  cases hkind : d.kind with
  | property | terminal => simp [hkind, AttributeForm.isGroup] at h
  | sequence | allowed | choice => exact ⟨_, rfl⟩

theorem ne_terminal_of_isGroup (h : d.kind.isGroup = true) : d.kind ≠ .terminal := by
  intro he
  simp [he, AttributeForm.isGroup] at h

theorem toAttribute_eq_error_iff_of_isGroup (hgroup : d.kind.isGroup = true) :
    d.toAttribute owner = .error cause ↔ d.Fails owner cause := by
  obtain ⟨kind, hkind⟩ := toAttribute_of_isGroup owner hgroup
  rw [hkind, toGroup_eq_error_iff]
  constructor
  · rintro (⟨hname, rfl⟩ | ⟨name, hname, hbounds, rfl⟩)
    · exact .unnamed (ne_terminal_of_isGroup hgroup) hname
    · exact .minAboveMax hgroup hname hbounds
  · rintro (⟨-, hname⟩ | ⟨-, hname, hbounds⟩)
    · exact .inl ⟨hname, rfl⟩
    · exact .inr ⟨_, hname, hbounds, rfl⟩

/-- A property has to have a name, and nothing else. -/
theorem toAttribute_property_eq_error_iff (h : d.kind = .property) :
    d.toAttribute owner = .error cause ↔
      d.name = none ∧ cause = .unnamedAttribute d.kind owner := by
  rw [toAttribute, h]
  dsimp only
  rw [requiredName]
  cases d.name with
  | none => simp [h, bind, Except.bind, eq_comm]
  | some name => simp [bind, Except.bind]

theorem toAttribute_eq_error_iff :
    d.toAttribute owner = .error cause ↔ d.Fails owner cause := by
  cases hkind : d.kind with
  | sequence | allowed | choice => exact toAttribute_eq_error_iff_of_isGroup (by rw [hkind]; rfl)
  | property =>
    rw [toAttribute_property_eq_error_iff hkind]
    constructor
    · rintro ⟨hname, rfl⟩
      exact .unnamed (by simp [hkind]) hname
    · rintro (⟨-, hname⟩ | ⟨hgroup, -, -⟩)
      · exact ⟨hname, rfl⟩
      · simp [hkind, AttributeForm.isGroup] at hgroup
  | terminal =>
    -- concrete syntax is always right
    rw [toAttribute, hkind]
    constructor
    · rintro ⟨⟩
    · rintro (⟨hne, -⟩ | ⟨hgroup, -, -⟩)
      · exact absurd hkind hne
      · simp [hkind, AttributeForm.isGroup] at hgroup

theorem exists_fails_iff : (∃ cause, d.Fails owner cause) ↔ ¬ d.WellFormed := by
  constructor
  · rintro ⟨cause, ⟨hkind, hname⟩ | ⟨hgroup, -, hbounds⟩⟩ h
    · exact h.named hkind hname
    · exact hbounds (h.satisfiable hgroup)
  · intro h
    refine Classical.byContradiction fun hno => h ⟨fun hkind hname => ?_, fun hgroup => ?_⟩
    · exact hno ⟨_, .unnamed hkind hname⟩
    refine Classical.byContradiction fun hbounds => ?_
    cases hname : d.name with
    | none => exact hno ⟨_, .unnamed (ne_terminal_of_isGroup hgroup) hname⟩
    | some name => exact hno ⟨_, .minAboveMax hgroup hname hbounds⟩

/-- A form that holds children makes a group, with the types that are listed and with bounds that
can be kept; no other form makes one. -/
theorem groups_of_toAttribute (h : d.toAttribute owner = .ok a) :
    (d.kind.isGroup = true ∧ ∃ decl, (Shape.mk [a]).groups = [decl] ∧
      decl.childTypes = d.types ∧ decl.bounds.Satisfiable) ∨
    (d.kind.isGroup = false ∧ (Shape.mk [a]).groups = []) := by
  cases hgroup : d.kind.isGroup with
  | true =>
    obtain ⟨kind, hkind⟩ := toAttribute_of_isGroup owner hgroup
    rw [hkind, toGroup_eq_ok_iff] at h
    obtain ⟨name, -, hbounds, rfl⟩ := h
    exact .inl ⟨rfl, _, rfl, rfl, hbounds⟩
  | false =>
    refine .inr ⟨rfl, ?_⟩
    rw [toAttribute] at h
    cases hkind : d.kind with
    | sequence | allowed | choice => simp [hkind, AttributeForm.isGroup] at hgroup
    | property =>
      rw [hkind, requiredName] at h
      cases hname : d.name with
      | none =>
        rw [hname] at h
        cases h
      | some name =>
        rw [hname] at h
        cases h
        rfl
    | terminal =>
      rw [hkind] at h
      cases h
      rfl

/-- The types that a group lists go into its declaration, and no other attribute lists any. -/
theorem childTypes_of_toAttribute (h : d.toAttribute owner = .ok a) :
    (Shape.mk [a]).groups.flatMap (·.childTypes) = if d.kind.isGroup then d.types else [] := by
  rcases groups_of_toAttribute h with ⟨hkind, decl, hgroups, htypes, -⟩ | ⟨hkind, hgroups⟩
  · rw [hgroups, hkind, if_pos rfl, List.flatMap_singleton, htypes]
  · rw [hgroups, hkind, if_neg Bool.false_ne_true, List.flatMap_nil]

end AttributeSpec

/-! ## Types -/

theorem Shape.groups_cons (a : Attribute) (as : List Attribute) :
    (Shape.mk (a :: as)).groups = (Shape.mk [a]).groups ++ (Shape.mk as).groups := by
  rw [groups, groups, groups, ← List.filterMap_append, List.singleton_append]

namespace TypeSpec

structure WellFormed (d : TypeSpec) : Prop where
  alternatives : d.kind = .oneOf → d.oneOf ≠ []
  attributes : d.kind = .concrete → ∀ a ∈ d.attributes, a.WellFormed

/-- What is wrong with the specification of the type. -/
inductive Fails (name : TypeName) (d : TypeSpec) : Malformation → Prop where
  | noAlternatives (kind : d.kind = .oneOf) (alternatives : d.oneOf = []) :
      Fails name d (.noAlternatives name)
  | attribute {a : AttributeSpec} {cause : Malformation} (kind : d.kind = .concrete)
      (first : IsFirst (¬ ·.WellFormed) d.attributes a) (fails : a.Fails name cause) :
      Fails name d cause

/-- The types that the specification refers to, in its order. -/
def references (d : TypeSpec) : List TypeName :=
  match d.kind with
  | .oneOf => d.oneOf
  | .concrete => (d.attributes.filter (·.kind.isGroup)).flatMap (·.types)

variable {name : TypeName} {d : TypeSpec} {type : TypeDef} {cause : Malformation}

theorem toTypeDef_eq_error_iff : d.toTypeDef name = .error cause ↔ d.Fails name cause := by
  rw [toTypeDef]
  cases hkind : d.kind with
  | concrete =>
    have hattributes : (d.attributes.mapM (·.toAttribute name) >>= fun attributes =>
          .ok (.concrete ⟨attributes⟩) : Except Malformation TypeDef) = .error cause ↔
        d.attributes.mapM (·.toAttribute name) = .error cause := by
      cases d.attributes.mapM (·.toAttribute name) <;> simp [bind, Except.bind]
    rw [hattributes, mapM_eq_error_iff]
    simp only [AttributeSpec.toAttribute_eq_error_iff, AttributeSpec.exists_fails_iff]
    constructor
    · rintro ⟨a, hfirst, hfails⟩
      exact .attribute hkind hfirst hfails
    · rintro (⟨hkind', -⟩ | ⟨-, hfirst, hfails⟩)
      · rw [hkind] at hkind'
        cases hkind'
      · exact ⟨_, hfirst, hfails⟩
  | oneOf =>
    dsimp only
    constructor
    · intro h
      split at h
      · next hempty =>
        cases h
        exact .noAlternatives hkind (List.isEmpty_iff.1 hempty)
      · cases h
    · rintro (⟨-, hempty⟩ | ⟨hkind', -, -⟩)
      · rw [if_pos (List.isEmpty_iff.2 hempty)]
      · rw [hkind] at hkind'
        cases hkind'

theorem exists_fails_iff : (∃ cause, d.Fails name cause) ↔ ¬ d.WellFormed := by
  constructor
  · rintro ⟨cause, ⟨hkind, hempty⟩ | ⟨hkind, hfirst, -⟩⟩ h
    · exact h.alternatives hkind hempty
    · exact hfirst.holds (h.attributes hkind _ hfirst.mem)
  · intro h
    refine Classical.byContradiction fun hno => h ⟨fun hkind hempty => ?_, fun hkind a ha => ?_⟩
    · exact hno ⟨_, .noAlternatives hkind hempty⟩
    · refine Classical.byContradiction fun hnot => ?_
      obtain ⟨b, hfirst⟩ := exists_isFirst (P := (¬ ·.WellFormed)) ha hnot
      obtain ⟨cause, hfails⟩ := AttributeSpec.exists_fails_iff.2 hfirst.holds
      exact hno ⟨cause, .attribute hkind hfirst hfails⟩

/-- Just the specifications that make sense make a type. -/
theorem exists_toTypeDef_iff : (∃ type, d.toTypeDef name = .ok type) ↔ d.WellFormed := by
  rw [exists_ok_iff]
  simp only [toTypeDef_eq_error_iff, exists_fails_iff, Classical.not_not]

theorem references_of_mapM {attributes : List AttributeSpec} {as : List Attribute}
    (h : attributes.mapM (·.toAttribute name) = .ok as) :
    (Shape.mk as).groups.flatMap (·.childTypes) =
      (attributes.filter (·.kind.isGroup)).flatMap (·.types) := by
  induction attributes generalizing as with
  | nil =>
    cases h
    rfl
  | cons d attributes ih =>
    obtain ⟨a, rest, ha, hrest, rfl⟩ := mapM_cons_eq_ok_iff.1 h
    rw [Shape.groups_cons, List.flatMap_append, AttributeSpec.childTypes_of_toAttribute ha, ih hrest,
      List.filter_cons]
    split
    · rfl
    · rfl

theorem references_of_toTypeDef (h : d.toTypeDef name = .ok type) :
    type.references = d.references := by
  rw [toTypeDef] at h
  rw [references]
  cases hkind : d.kind with
  | oneOf =>
    rw [hkind] at h
    dsimp only at h
    split at h
    · cases h
    · cases h
      rfl
  | concrete =>
    rw [hkind] at h
    cases hattributes : d.attributes.mapM (·.toAttribute name) with
    | error cause =>
      rw [hattributes] at h
      cases h
    | ok as =>
      rw [hattributes] at h
      cases h
      exact references_of_mapM hattributes

end TypeSpec
end BlockEdit
