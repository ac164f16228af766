/-
Descriptions: a node with its whole subtree in the form in which it is
handed in and out. Properties and children may be absent, which is not the
same as empty, and they are maps: their order carries no meaning.

A description is `Canonical` when its maps are in ascending order, at every
level. Descriptions that are read or made by this library are, and equal
ones then hold the same data.
-/
import BlockEdit.Entries.Sorted
import BlockEdit.TypeName

namespace BlockEdit

structure Description where
  language : String
  name : String
  properties : Option (List (String × String))
  children : Option (List (String × List Description))

namespace Description

def typeName (d : Description) : TypeName := ⟨d.language, d.name⟩

/-- What passes from the children of a description to it holds of every description. -/
@[elab_as_elim]
theorem induct {P : Description → Prop} (d : Description)
    (step : ∀ d, (∀ g ∈ d.children.getD [], ∀ c ∈ g.2, P c) → P d) : P d :=
  @Description.rec P (fun children => ∀ g ∈ children.getD [], ∀ c ∈ g.2, P c)
    (fun groups => ∀ g ∈ groups, ∀ c ∈ g.2, P c) (fun g => ∀ c ∈ g.2, P c)
    (fun children => ∀ c ∈ children, P c)
    (fun language name properties children ih => step ⟨language, name, properties, children⟩ ih)
    nofun (fun _ h => h)
    nofun (fun _ _ hg hgs => List.forall_mem_cons.2 ⟨hg, hgs⟩)
    (fun _ _ h => h)
    nofun (fun _ _ hc hcs => List.forall_mem_cons.2 ⟨hc, hcs⟩) d

/-- The maps are in ascending order of their keys, at every level. -/
inductive Canonical : Description → Prop where
  | intro {d : Description} (properties : Entries.Ascending (d.properties.getD []))
      (children : Entries.Ascending (d.children.getD []))
      (nested : ∀ g ∈ d.children.getD [], ∀ c ∈ g.2, Canonical c) : Canonical d

mutual
/-- The number of descriptions nested in this one, itself included. -/
def size : Description → Nat
  | ⟨_, _, _, none⟩ => 1
  | ⟨_, _, _, some groups⟩ => 1 + groupsSize groups

def groupsSize : List (String × List Description) → Nat
  | [] => 0
  | (_, children) :: groups => childrenSize children + groupsSize groups

def childrenSize : List Description → Nat
  | [] => 0
  | child :: children => child.size + childrenSize children
end

/-! ## Equality -/

mutual
def decEq : (a b : Description) → Decidable (a = b)
  | ⟨language, name, properties, none⟩, ⟨language', name', properties', none⟩ =>
    if h : language = language' ∧ name = name' ∧ properties = properties' then
      isTrue (by rw [h.1, h.2.1, h.2.2])
    else isFalse fun e => h (by cases e; exact ⟨rfl, rfl, rfl⟩)
  | ⟨language, name, properties, some groups⟩, ⟨language', name', properties', some groups'⟩ =>
    match decEqGroups groups groups' with
    | isTrue e =>
      if h : language = language' ∧ name = name' ∧ properties = properties' then
        isTrue (by rw [e, h.1, h.2.1, h.2.2])
      else isFalse fun e => h (by cases e; exact ⟨rfl, rfl, rfl⟩)
    | isFalse h => isFalse fun e => h (by cases e; rfl)
  | ⟨_, _, _, none⟩, ⟨_, _, _, some _⟩ => isFalse nofun
  | ⟨_, _, _, some _⟩, ⟨_, _, _, none⟩ => isFalse nofun

def decEqGroups : (gs hs : List (String × List Description)) → Decidable (gs = hs)
  | [], [] => isTrue rfl
  | [], _ :: _ => isFalse nofun
  | _ :: _, [] => isFalse nofun
  | (g, cs) :: gs, (h, ds) :: hs =>
    match decEqChildren cs ds, decEqGroups gs hs with
    | isTrue e, isTrue e' =>
      if e'' : g = h then isTrue (by rw [e, e', e'']) else isFalse fun he => e'' (by cases he; rfl)
    | isFalse e, _ => isFalse fun he => e (by cases he; rfl)
    | _, isFalse e => isFalse fun he => e (by cases he; rfl)

def decEqChildren : (cs ds : List Description) → Decidable (cs = ds)
  | [], [] => isTrue rfl
  | [], _ :: _ => isFalse nofun
  | _ :: _, [] => isFalse nofun
  | c :: cs, d :: ds =>
    match decEq c d, decEqChildren cs ds with
    | isTrue e, isTrue e' => isTrue (by rw [e, e'])
    | isFalse e, _ => isFalse fun he => e (by cases he; rfl)
    | _, isFalse e => isFalse fun he => e (by cases he; rfl)
end

instance : DecidableEq Description := decEq

end Description
end BlockEdit
