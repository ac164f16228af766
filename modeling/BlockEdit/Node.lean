/-
Nodes of a syntax tree. A node has a type name, named properties with text
values, and named groups of children; properties and groups keep the order
in which they came.

A function on all of a subtree is a `fold`: it sees the node together with
the results for its children, group by group. `fold_eq` is the one equation
of it, and `Node.induct` the one induction.
-/
import BlockEdit.Entries
import BlockEdit.Location
import BlockEdit.TypeName

namespace BlockEdit

structure Node where
  name : TypeName
  properties : List (String × String)
  groups : List (String × List Node)

namespace Node

/-! ## Folding a subtree -/

section
variable {β : Type} (f : Node → List (String × List (Node × β)) → β)

mutual
/-- `f` gets a node and its groups, with each child beside its own result. -/
def fold : Node → β
  | ⟨name, properties, groups⟩ => f ⟨name, properties, groups⟩ (foldGroups groups)

def foldGroups : List (String × List Node) → List (String × List (Node × β))
  | [] => []
  | (group, children) :: groups => (group, foldChildren children) :: foldGroups groups

def foldChildren : List Node → List (Node × β)
  | [] => []
  | child :: children => (child, fold child) :: foldChildren children
end

theorem foldChildren_eq : ∀ cs, foldChildren f cs = cs.map fun c => (c, c.fold f)
  | [] => rfl
  | c :: cs => by rw [foldChildren, foldChildren_eq cs, List.map_cons]

theorem foldGroups_eq : ∀ gs : List (String × List Node),
    foldGroups f gs = gs.map fun g => (g.1, g.2.map fun c => (c, c.fold f))
  | [] => rfl
  | (group, cs) :: gs => by rw [foldGroups, foldGroups_eq gs, foldChildren_eq, List.map_cons]

theorem fold_eq (n : Node) :
    n.fold f = f n (n.groups.map fun g => (g.1, g.2.map fun c => (c, c.fold f))) := by
  obtain ⟨name, properties, groups⟩ := n
  rw [fold, foldGroups_eq]
end

/-- What passes from the children of a node to the node holds of every node. -/
@[elab_as_elim]
theorem induct {P : Node → Prop} (n : Node)
    (step : ∀ n, (∀ g ∈ n.groups, ∀ c ∈ g.2, P c) → P n) : P n :=
  @Node.rec P (fun groups => ∀ g ∈ groups, ∀ c ∈ g.2, P c) (fun g => ∀ c ∈ g.2, P c)
    (fun children => ∀ c ∈ children, P c)
    (fun name properties groups ih => step ⟨name, properties, groups⟩ ih)
    nofun (fun _ _ hg hgs => List.forall_mem_cons.2 ⟨hg, hgs⟩)
    (fun _ _ h => h)
    nofun (fun _ _ hc hcs => List.forall_mem_cons.2 ⟨hc, hcs⟩) n

/-! ## Parts of a node -/

def property? (n : Node) (key : String) : Option String := Entries.get? n.properties key

/-- The node has a group of this name, be it empty. -/
def hasGroup (n : Node) (group : String) : Bool := Entries.has n.groups group

/-- An absent group has no children, like an empty one. -/
def childrenOf (n : Node) (group : String) : List Node := (Entries.get? n.groups group).getD []

def child? (n : Node) (s : Step) : Option Node := (n.childrenOf s.group)[s.index]?

theorem exists_mem_groups_of_mem_childrenOf {n c : Node} {group : String}
    (h : c ∈ n.childrenOf group) : ∃ cs, (group, cs) ∈ n.groups ∧ c ∈ cs := by
  rw [childrenOf] at h
  cases hg : Entries.get? n.groups group with
  | none => simp [hg] at h
  | some cs => exact ⟨cs, Entries.mem_of_get? hg, by simpa [hg] using h⟩

/-- `induct` with the children as `childrenOf` names them. -/
@[elab_as_elim]
theorem induct_childrenOf {P : Node → Prop} (n : Node)
    (step : ∀ n, (∀ group, ∀ c ∈ n.childrenOf group, P c) → P n) : P n := by
  induction n using induct with
  | step n ih =>
    refine step n fun group c hc => ?_
    obtain ⟨cs, hcs, hc⟩ := exists_mem_groups_of_mem_childrenOf hc
    exact ih _ hcs c hc

/-- How many nodes there are in the subtree, the node itself included. -/
def size : Node → Nat :=
  fold fun _ groups => 1 + total (groups.map fun g => total (g.2.map (·.2)))
where
  total (counts : List Nat) : Nat := counts.foldr (· + ·) 0

theorem size_eq (n : Node) :
    n.size = 1 + size.total (n.groups.map fun g => size.total (g.2.map size)) := by
  rw [size, fold_eq]
  simp [Function.comp_def]

/-! ## Building -/

/-- A node without properties and groups. -/
def leaf (name : TypeName) : Node := ⟨name, [], []⟩

def putProperty (n : Node) (key value : String) : Node :=
  { n with properties := Entries.put n.properties key value }

/-- Puts these children into a group in place of those it has. -/
def setGroup (n : Node) (group : String) (children : List Node) : Node :=
  { n with groups := Entries.put n.groups group children }

/-- Appends a child to a group. -/
def appendChild (n : Node) (group : String) (child : Node) : Node :=
  n.setGroup group (n.childrenOf group ++ [child])

/-- Adds an empty group, unless there is one of this name. -/
def ensureGroup (n : Node) (group : String) : Node := n.setGroup group (n.childrenOf group)

theorem childrenOf_setGroup_self (n : Node) (group : String) (children : List Node) :
    (n.setGroup group children).childrenOf group = children := by
  rw [childrenOf, setGroup, Entries.get?_put_self, Option.getD_some]

theorem childrenOf_setGroup_of_ne (n : Node) {group group' : String} (children : List Node)
    (h : group' ≠ group) : (n.setGroup group children).childrenOf group' = n.childrenOf group' := by
  rw [childrenOf, setGroup, Entries.get?_put_of_ne _ _ h, childrenOf]

theorem hasGroup_of_child? {n c : Node} {s : Step} (h : n.child? s = some c) :
    n.hasGroup s.group = true := by
  rw [hasGroup, Entries.has]
  rw [child?, childrenOf] at h
  cases hg : Entries.get? n.groups s.group with
  | none => simp [hg] at h
  | some cs => rfl

/-- A group that is there stays as it is. -/
theorem ensureGroup_of_hasGroup {n : Node} {group : String} (h : n.hasGroup group = true) :
    n.ensureGroup group = n := by
  obtain ⟨name, properties, groups⟩ := n
  obtain ⟨cs, hcs⟩ := Option.isSome_iff_exists.1 h
  dsimp only at hcs
  simp only [ensureGroup, setGroup, childrenOf, hcs, Option.getD_some, Entries.put_get? hcs]

/-! ## Equality -/

mutual
def decEq : (m n : Node) → Decidable (m = n)
  | ⟨name, properties, groups⟩, ⟨name', properties', groups'⟩ =>
    match decEqGroups groups groups' with
    | isTrue h =>
      if h' : name = name' ∧ properties = properties' then isTrue (by rw [h, h'.1, h'.2])
      else isFalse fun e => h' (by cases e; exact ⟨rfl, rfl⟩)
    | isFalse h => isFalse fun e => h (by cases e; rfl)

def decEqGroups : (gs hs : List (String × List Node)) → Decidable (gs = hs)
  | [], [] => isTrue rfl
  | [], _ :: _ => isFalse nofun
  | _ :: _, [] => isFalse nofun
  | (g, cs) :: gs, (h, ds) :: hs =>
    match decEqChildren cs ds, decEqGroups gs hs with
    | isTrue e, isTrue e' =>
      if e'' : g = h then isTrue (by rw [e, e', e'']) else isFalse fun he => e'' (by cases he; rfl)
    | isFalse e, _ => isFalse fun he => e (by cases he; rfl)
    | _, isFalse e => isFalse fun he => e (by cases he; rfl)

def decEqChildren : (cs ds : List Node) → Decidable (cs = ds)
  | [], [] => isTrue rfl
  | [], _ :: _ => isFalse nofun
  | _ :: _, [] => isFalse nofun
  | c :: cs, d :: ds =>
    match decEq c d, decEqChildren cs ds with
    | isTrue e, isTrue e' => isTrue (by rw [e, e'])
    | isFalse e, _ => isFalse fun he => e (by cases he; rfl)
    | _, isFalse e => isFalse fun he => e (by cases he; rfl)
end

instance : DecidableEq Node := decEq

end Node
end BlockEdit
