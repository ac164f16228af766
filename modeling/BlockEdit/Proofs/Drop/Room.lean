/-
A group that is short of children has room for one more, so that nothing is
asked for that no drop may provide. For in a grammar no group has to hold more
children than it can: that is seen to for each definition that prevails, once
what it leaves open has got its usual bounds
(`GrammarSpec.satisfiable_of_combine`), and every node has its shape from there.
-/
import BlockEdit.Proofs.Drop.Slot
import BlockEdit.Proofs.Grammar.Acceptance
import BlockEdit.Proofs.Grammar.Reach

namespace BlockEdit

/-! ## Bounds that can be kept -/

/-- Every group can hold as many children as it has to. -/
def Shape.Satisfiable (c : Shape) : Prop := ∀ decl ∈ c.groups, decl.bounds.Satisfiable

theorem AttributeSpec.satisfiable_of_toAttribute {d : AttributeSpec} {owner : TypeName}
    {a : Attribute} (h : d.toAttribute owner = .ok a) : (Shape.mk [a]).Satisfiable := by
  intro decl hdecl
  rcases groups_of_toAttribute h with ⟨-, decl', hgroups, -, hbounds⟩ | ⟨-, hgroups⟩
  · rw [hgroups, List.mem_singleton] at hdecl
    rw [hdecl]
    exact hbounds
  · rw [hgroups] at hdecl
    cases hdecl

namespace TypeSpec

variable {d : TypeSpec} {name : TypeName} {c : Shape}

theorem satisfiable_of_mapM {attributes : List AttributeSpec} {as : List Attribute}
    (h : attributes.mapM (·.toAttribute name) = .ok as) : (Shape.mk as).Satisfiable := by
  induction attributes generalizing as with
  | nil =>
    cases h
    exact nofun
  | cons d attributes ih =>
    obtain ⟨a, rest, ha, hrest, rfl⟩ := mapM_cons_eq_ok_iff.1 h
    intro decl hdecl
    rw [Shape.groups_cons, List.mem_append] at hdecl
    rcases hdecl with hdecl | hdecl
    · exact AttributeSpec.satisfiable_of_toAttribute ha decl hdecl
    · exact ih hrest decl hdecl

theorem satisfiable_of_toTypeDef (h : d.toTypeDef name = .ok (.concrete c)) : c.Satisfiable := by
  rw [toTypeDef] at h
  cases hkind : d.kind with
  | oneOf =>
    rw [hkind] at h
    dsimp only at h
    split at h
    · cases h
    · cases h
  | concrete =>
    rw [hkind] at h
    cases hattributes : d.attributes.mapM (·.toAttribute name) with
    | error cause =>
      rw [hattributes] at h
      cases h
    | ok as =>
      rw [hattributes] at h
      cases h
      exact satisfiable_of_mapM hattributes

end TypeSpec

/-- The shapes of a grammar have no group that could not hold what it has to. -/
theorem GrammarSpec.satisfiable_of_combine {ds : List GrammarSpec} {g : Grammar}
    (h : (Grammar.combine ds).value = .ok g) {name : TypeName} {c : Shape}
    (hc : g.shape? name = some c) : c.Satisfiable := by
  obtain ⟨spec, -, hmade⟩ := (combine_eq_ok_iff.1 h).1.exists_spec (Grammar.shape?_eq_some_iff.1 hc)
  exact TypeSpec.satisfiable_of_toTypeDef hmade

/-! ## Room where a child is wanting -/

namespace Tree

variable {ds : List GrammarSpec} {g : Grammar} {t : Tree} {parent : Location} {group : String}
  {i : Nat}

/-- **A group that is short of children has room.** In a grammar that specifications combine to,
a slot that is short of children has room for one more, so that it takes a cargo just when the
group that the parent's shape declares admits some form of it. -/
theorem slotTakes_iff_of_slotIsShort (hg : (Grammar.combine ds).value = .ok g)
    (hshort : t.slotIsShort g (parent.child group i) = true) :
    ∃ n c decl, t.nodeAt? parent = some n ∧ g.shapeOf? n = some c ∧ c.group? group = some decl ∧
      decl.bounds.takesAnother (n.childrenOf group).length = true ∧
      ∀ cargo : Cargo, t.slotTakes g (parent.child group i) cargo = true ↔
        ∃ d ∈ cargo, g.admits decl d.typeName = true := by
  obtain ⟨n, c, decl, hn, hc, hdecl, hwanting⟩ := slotIsShort_child_iff.1 hshort
  obtain ⟨name, hname⟩ := Grammar.exists_shape?_of_shapeOf? hc
  have hbounds := GrammarSpec.satisfiable_of_combine hg hname decl (Shape.of_group?_eq_some hdecl).1
  have hroom := Bounds.takesAnother_of_shortfall hbounds hwanting
  refine ⟨n, c, decl, hn, hc, hdecl, hroom, fun cargo => ?_⟩
  rw [slotTakes_child_iff_of_shapeOf? hn hc]
  constructor
  · rintro ⟨decl', hdecl', -, hadmits⟩
    rw [hdecl] at hdecl'
    cases hdecl'
    exact hadmits
  · intro hadmits
    exact ⟨decl, hdecl, hroom, hadmits⟩

/-! ## A lamp without its bulb -/

/-- A lamp has one bulb, as nothing else is said of the number. -/
def lampSpec : GrammarSpec where
  name := "lamps"
  root := none
  types := [("house", [
    ("lamp", { kind := .concrete, attributes := [bulb none none], oneOf := [] }),
    ("bulb", { kind := .concrete, attributes := [], oneOf := [] }),
    ("candle", { kind := .concrete, attributes := [], oneOf := [] })])]
where
  bulb (atLeast atMost : Option Nat) : AttributeSpec :=
    { kind := .choice, name := some "bulb", literal := none, isOptional := none,
      types := [⟨"house", "bulb"⟩], atLeast, atMost, symbol := none }

/-- A lamp that has to have a bulb and can have none, but that comes too late. -/
def darkSpec : GrammarSpec where
  name := "dark"
  root := none
  types := [("house", [
    ("lamp", { kind := .concrete, attributes := [lampSpec.bulb none (some 0)], oneOf := [] })])]

def lampGrammar : Grammar where
  types := [
    (⟨"house", "bulb"⟩, .concrete ⟨[]⟩),
    (⟨"house", "candle"⟩, .concrete ⟨[]⟩),
    (⟨"house", "lamp"⟩, .concrete ⟨[.group ⟨"bulb", .choice, [⟨"house", "bulb"⟩], .single⟩]⟩)]
  root := none

def lamp : Description := ⟨"house", "lamp", none, none⟩

/-- The lamp takes a bulb, also as the second form of what is dragged, and no candle. -/
theorem slotTakes_lamp :
    (Grammar.combine [lampSpec, darkSpec]).value = .ok lampGrammar ∧
    (ofDescription lamp).slotIsShort lampGrammar (Location.root.child "bulb" 0) = true ∧
    (ofDescription lamp).slotTakes lampGrammar (Location.root.child "bulb" 0)
      [⟨"house", "candle", none, none⟩, ⟨"house", "bulb", none, none⟩] = true ∧
    (ofDescription lamp).slotTakes lampGrammar (Location.root.child "bulb" 0)
      [⟨"house", "candle", none, none⟩] = false := by
  have hg : (Grammar.combine [lampSpec, darkSpec]).value = .ok lampGrammar := by decide +kernel
  have hshort : (ofDescription lamp).slotIsShort lampGrammar (Location.root.child "bulb" 0) =
      true := by
    decide +kernel
  obtain ⟨n, c, decl, hn, hc, hdecl, -, htakes⟩ := slotTakes_iff_of_slotIsShort hg hshort
  cases hn
  cases hc
  cases hdecl
  refine ⟨hg, hshort, (htakes _).2 ?_, Bool.eq_false_iff.2 fun h => ?_⟩
  · exact ⟨⟨"house", "bulb", none, none⟩, by decide, by decide +kernel⟩
  · obtain ⟨d, hd, hadmits⟩ := (htakes _).1 h
    cases List.mem_singleton.1 hd
    revert hadmits
    decide +kernel

end Tree
end BlockEdit
