/-
Alternative types that lead back to themselves. A single search from the type,
with one list of seen names for all its branches, finds a way back just when
there is one (`Grammar.loopsBack_iff`): the way may be of any length, and the
search may come upon other circles first. A type that merely leads into a circle is
not on it, and no way leads back to it.

Whoever combines specifications to a grammar is told of these types, of each
once and in ascending order, between the definitions that are shadowed and the
report that the grammar is made (`GrammarSpec.loops_recorded`).
-/
import BlockEdit.Proofs.Grammar.Merging
import BlockEdit.Proofs.Grammar.Reach

namespace BlockEdit

namespace Grammar

variable {g : Grammar} {a : TypeName}

theorem loopsBack_iff : g.loopsBack a = true ↔ Relation.TransGen g.LeadsTo a a := by
  rw [loopsBack, List.any_eq_true, Relation.TransGen.tail'_iff]
  simp only [mem_reach_iff, decide_eq_true_eq, LeadsTo]

/-- A way back starts with a member, and the member covers the type. -/
theorem loopsBack_iff_exists_member : g.loopsBack a = true ↔
    ∃ members, g.get? a = some (.oneOf members) ∧ ∃ m ∈ members, g.covers m a = true := by
  rw [loopsBack_iff, Relation.TransGen.head'_iff]
  simp only [leadsTo_iff, covers_iff]
  constructor
  · rintro ⟨m, ⟨members, hmembers, hm⟩, hback⟩
    exact ⟨members, hmembers, m, hm, hback⟩
  · rintro ⟨members, hmembers, m, hm, hback⟩
    exact ⟨m, ⟨members, hmembers, hm⟩, hback⟩

/-- A type that leads back to itself is defined, so it is found among the types. -/
theorem mem_loops_iff : a ∈ g.loops ↔ g.loopsBack a = true := by
  rw [loops, List.mem_filter]
  refine ⟨And.right, fun h => ⟨?_, h⟩⟩
  obtain ⟨members, hmembers, -⟩ := loopsBack_iff_exists_member.1 h
  exact List.mem_map_of_mem (Entries.mem_of_get? hmembers)

theorem pairwise_loops (h : g.types.Ascending) : g.loops.Pairwise (compare · · = .lt) := by
  have hnames : (g.types.map (·.1)).Pairwise (compare · · = .lt) := List.pairwise_map.2 h
  exact hnames.filter _

end Grammar

namespace GrammarSpec

variable {ds : List GrammarSpec} {g : Grammar}

theorem exists_shadowedType_of_mem_shadowings {e : Event} (h : e ∈ shadowings ds) :
    ∃ grammar type, e = .shadowedType grammar type := by
  obtain ⟨⟨d, i⟩, -, he⟩ := List.mem_flatMap.1 h
  obtain ⟨definition, -, rfl⟩ := List.mem_map.1 he
  exact ⟨_, _, rfl⟩

/-- **Types that lead back to themselves.** When specifications combine to a grammar, such types
are recorded after all definitions that are shadowed and ahead of the report that the grammar is
made. There is one record for each alternative type with a member that covers it, that is for each
that lies on a circle of members, in ascending order of the names, and none for any other type. -/
theorem loops_recorded (h : (Grammar.combine ds).value = .ok g) :
    (Grammar.combine ds).events =
      shadowings ds ++ g.loops.map .alternativeLoop ++ [.builtGrammar ds.length g.size] ∧
    (∀ e ∈ shadowings ds, ∃ grammar type, e = .shadowedType grammar type) ∧
    g.loops.Pairwise (compare · · = .lt) ∧
    ∀ name, (name ∈ g.loops ↔ ∃ members, g.get? name = some (.oneOf members) ∧
        ∃ m ∈ members, g.covers m name = true) ∧
      (name ∈ g.loops ↔ Relation.TransGen
        (fun a b => ∃ members, g.get? a = some (.oneOf members) ∧ b ∈ members) name name) := by
  have hsteps : g.LeadsTo = fun a b =>
      ∃ members, g.get? a = some (.oneOf members) ∧ b ∈ members :=
    funext₂ fun _ _ => propext Grammar.leadsTo_iff
  refine ⟨events_combine h, fun e => exists_shadowedType_of_mem_shadowings,
    Grammar.pairwise_loops (combine_eq_ok_iff.1 h).1.ascending, fun name => ⟨?_, ?_⟩⟩
  · rw [Grammar.mem_loops_iff, Grammar.loopsBack_iff_exists_member]
  · rw [Grammar.mem_loops_iff, Grammar.loopsBack_iff, hsteps]

/-! ## A ring -/

/-- A chain leads into a ring of two types, and a knot is one of its own members. -/
def ringSpec : GrammarSpec where
  name := "rings"
  root := none
  types := [("x", [
    ("chain", oneOf ["ring"]), ("ring", oneOf ["link", "leaf"]), ("link", oneOf ["ring"]),
    ("knot", oneOf ["leaf", "knot"]), ("leaf", ⟨.concrete, [], []⟩)])]
where
  oneOf (members : List String) : TypeSpec := ⟨.oneOf, [], members.map (⟨"x", ·⟩)⟩

/-- A specification that comes too late to make an end of the ring. -/
def openRingSpec : GrammarSpec where
  name := "open"
  root := none
  types := [("x", [("link", ⟨.concrete, [], []⟩)])]

def ringGrammar : Grammar where
  types := [
    (⟨"x", "chain"⟩, .oneOf [⟨"x", "ring"⟩]),
    (⟨"x", "knot"⟩, .oneOf [⟨"x", "leaf"⟩, ⟨"x", "knot"⟩]),
    (⟨"x", "leaf"⟩, .concrete ⟨[]⟩),
    (⟨"x", "link"⟩, .oneOf [⟨"x", "ring"⟩]),
    (⟨"x", "ring"⟩, .oneOf [⟨"x", "link"⟩, ⟨"x", "leaf"⟩])]
  root := none

/-- The ring and the knot are recorded, the chain is not. -/
theorem loops_recorded_ring :
    (Grammar.combine [ringSpec, openRingSpec]).value = .ok ringGrammar ∧
    (Grammar.combine [ringSpec, openRingSpec]).events =
      [.shadowedType "open" ⟨"x", "link"⟩] ++ ringGrammar.loops.map .alternativeLoop ++
        [.builtGrammar 2 5] ∧
    ⟨"x", "knot"⟩ ∈ ringGrammar.loops ∧ ⟨"x", "ring"⟩ ∈ ringGrammar.loops ∧
    ⟨"x", "chain"⟩ ∉ ringGrammar.loops := by
  have hcombine : (Grammar.combine [ringSpec, openRingSpec]).value = .ok ringGrammar := by
    decide +kernel
  obtain ⟨hevents, -, -, hloops⟩ := loops_recorded hcombine
  refine ⟨hcombine, hevents, ?_, ?_, fun hchain => ?_⟩
  · exact (hloops _).1.2 ⟨_, rfl, ⟨"x", "knot"⟩, by decide, by decide +kernel⟩
  · exact (hloops _).1.2 ⟨_, rfl, ⟨"x", "link"⟩, by decide, by decide +kernel⟩
  · obtain ⟨members, hmembers, m, hm, hcovers⟩ := (hloops _).1.1 hchain
    cases hmembers
    cases List.mem_singleton.1 hm
    revert hcovers
    decide +kernel

end GrammarSpec
end BlockEdit
