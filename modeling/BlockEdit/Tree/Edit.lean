/-
Edits of a tree. An edit makes a new tree and leaves the old one as it is,
and it asks no grammar: whether the result makes sense is for others to say.

All edits but those of the root itself go through `modifyAt`, which changes
one node and rebuilds the way to it. `modifyAt_eq_ok_iff` and
`modifyAt_eq_error_iff` say all about it.
-/
import BlockEdit.Tree
import BlockEdit.Tree.Error

namespace BlockEdit

/-! ## Changes to one node -/

namespace Node

/-- Puts a child in front of the one at the index, or behind the last; later
children move up. A group that is absent is added. -/
def insertChild? (n : Node) (s : Step) (c : Node) : Option Node :=
  let children := n.childrenOf s.group
  if s.index ≤ children.length then some (n.setGroup s.group (children.insertIdx s.index c))
  else none

/-- Takes a child out; later children move down, and an emptied group stays. -/
def removeChild? (n : Node) (s : Step) : Option Node :=
  let children := n.childrenOf s.group
  if s.index < children.length then some (n.setGroup s.group (children.eraseIdx s.index))
  else none

def rekeyProperty? (n : Node) (old new : String) : Option Node :=
  if Entries.has n.properties old then
    some { n with properties := Entries.rename n.properties old new }
  else none

def removeProperty (n : Node) (key : String) : Node :=
  { n with properties := Entries.remove n.properties key }

namespace WellFormed

variable {n m : Node}

theorem insertChild? {s : Step} {c : Node} (h : n.WellFormed) (hc : c.WellFormed)
    (hm : n.insertChild? s c = some m) : m.WellFormed := by
  simp only [Node.insertChild?] at hm
  split at hm
  · next hs =>
    cases hm
    refine h.setGroup s.group fun d hd => ?_
    rcases (List.mem_insertIdx hs).1 hd with rfl | hd
    · exact hc
    · exact h.childrenOf hd
  · cases hm

theorem removeChild? {s : Step} (h : n.WellFormed) (hm : n.removeChild? s = some m) :
    m.WellFormed := by
  simp only [Node.removeChild?] at hm
  split at hm
  · cases hm
    exact h.setGroup s.group fun d hd => h.childrenOf (List.mem_of_mem_eraseIdx hd)
  · cases hm

theorem rekeyProperty? {old new : String} (h : n.WellFormed)
    (hm : n.rekeyProperty? old new = some m) : m.WellFormed := by
  simp only [Node.rekeyProperty?] at hm
  split at hm
  · cases hm
    exact .intro (Entries.distinct_rename h.properties ..) h.groups h.children
  · cases hm

theorem removeProperty (h : n.WellFormed) (key : String) : (n.removeProperty key).WellFormed :=
  .intro (Entries.distinct_remove h.properties key) h.groups h.children

end WellFormed
end Node

/-! ## Changes to a tree -/

/-- A change that is not possible fails with this error. -/
def orFail (e : EditError) : Option Node → Except EditError Node
  | none => .error e
  | some n => .ok n

theorem orFail_eq_ok_iff {e : EditError} {n? : Option Node} {n : Node} :
    orFail e n? = .ok n ↔ n? = some n := by
  cases n? <;> simp [orFail]

theorem orFail_eq_error_iff {e e' : EditError} {n? : Option Node} :
    orFail e n? = .error e' ↔ n? = none ∧ e' = e := by
  cases n? <;> simp [orFail, eq_comm]

namespace Tree

def nodeAt (t : Tree) (l : Location) : Except EditError Node :=
  match t.nodeAt? l with
  | some n => .ok n
  | none => .error (.noSuchLocation l)

/-- Changes the node at `target`. Where there is none, `reported` is the
location that the error names. -/
def modifyAt (t : Tree) (target reported : Location) (edit : Node → Except EditError Node)
    (keeps : ∀ ⦃n m : Node⦄, n.WellFormed → edit n = .ok m → m.WellFormed) :
    Except EditError Tree :=
  match h : t.nodeAt? target with
  | none => .error (.noSuchLocation reported)
  | some n =>
    match h' : edit n with
    | .error e => .error e
    | .ok m => .ok (t.putAt target m (keeps (wellFormed_of_nodeAt? h) h'))

section
variable {t t' : Tree} {target reported : Location} {edit : Node → Except EditError Node}
  {keeps : ∀ ⦃n m : Node⦄, n.WellFormed → edit n = .ok m → m.WellFormed} {e : EditError}

theorem modifyAt_eq_ok_iff : t.modifyAt target reported edit keeps = .ok t' ↔
    ∃ n m, t.nodeAt? target = some n ∧ edit n = .ok m ∧
      t'.root = t.root.map (·.putAt target.steps m) := by
  rw [modifyAt]
  split
  · next h => simp [h]
  · next n h =>
    split
    · next e h' => simp [h, h']
    · next m h' =>
      simp only [Except.ok.injEq, Tree.ext_iff, putAt]
      constructor
      · intro he
        exact ⟨n, m, h, h', he.symm⟩
      · rintro ⟨n', m', hn, hm, he⟩
        rw [h] at hn
        cases hn
        rw [h'] at hm
        cases hm
        exact he.symm

theorem modifyAt_eq_error_iff : t.modifyAt target reported edit keeps = .error e ↔
    (t.nodeAt? target = none ∧ e = .noSuchLocation reported) ∨
      ∃ n, t.nodeAt? target = some n ∧ edit n = .error e := by
  rw [modifyAt]
  split
  · next h => simp [h, eq_comm]
  · next n h =>
    split
    · next e' h' => simp [h, h']
    · next m h' => simp [h, h']
end

/-- A new node at the location; the node that was there and its later
siblings move up. The root can be inserted into the empty tree only. -/
def insert (t : Tree) (l : Location) (d : Description) : Except EditError Tree :=
  match l.parentAndStep? with
  | none => if t.isEmpty then .ok (ofDescription d) else .error .hasRoot
  | some (parent, s) =>
    t.modifyAt parent l (fun n => orFail (.noSuchLocation l) (n.insertChild? s d.toNode))
      fun _ _ h hm => h.insertChild? d.wellFormed_toNode (orFail_eq_ok_iff.1 hm)

/-- Another node, with another subtree, in the place of the one at the location. -/
def replace (t : Tree) (l : Location) (d : Description) : Except EditError Tree :=
  t.modifyAt l l (fun _ => .ok d.toNode) fun _ _ _ hm => Except.ok.inj hm ▸ d.wellFormed_toNode

/-- Removes a node with its subtree; later siblings move down. Without the
root the empty tree is left. -/
def delete (t : Tree) (l : Location) : Except EditError Tree :=
  match l.parentAndStep? with
  | none => (t.nodeAt l).map fun _ => empty
  | some (parent, s) =>
    t.modifyAt parent l (fun n => orFail (.noSuchLocation l) (n.removeChild? s))
      fun _ _ h hm => h.removeChild? (orFail_eq_ok_iff.1 hm)

/-- Takes the node at `source` to `target`, which is read before anything
is moved. A node moved to where it is stays; all others
arrive as described, with properties and groups in ascending order. -/
def move (t : Tree) (source target : Location) : Except EditError Tree := do
  let n ← t.nodeAt source
  if target = source then
    return t
  match target.afterRemoval source with
  | none => .error (.moveIntoItself source target)
  | some adjusted =>
    let t ← t.delete source
    t.insert adjusted n.describe

def putProperty (t : Tree) (l : Location) (key value : String) : Except EditError Tree :=
  t.modifyAt l l (fun n => .ok (n.putProperty key value))
    fun _ _ h hm => Except.ok.inj hm ▸ h.putProperty key value

/-- Gives a property another key, in its place. A property that has the new
key already is lost. -/
def rekeyProperty (t : Tree) (l : Location) (old new : String) : Except EditError Tree :=
  t.modifyAt l l (fun n => orFail (.noSuchProperty l old) (n.rekeyProperty? old new))
    fun _ _ h hm => h.rekeyProperty? (orFail_eq_ok_iff.1 hm)

/-- Removes a property if it is there. -/
def removeProperty (t : Tree) (l : Location) (key : String) : Except EditError Tree :=
  t.modifyAt l l (fun n => .ok (n.removeProperty key))
    fun _ _ h hm => Except.ok.inj hm ▸ h.removeProperty key

/-- Adds an empty group, unless there is one of this name. -/
def addGroup (t : Tree) (l : Location) (group : String) : Except EditError Tree :=
  t.modifyAt l l (fun n => .ok (n.ensureGroup group))
    fun _ _ h hm => Except.ok.inj hm ▸ h.ensureGroup group

end Tree
end BlockEdit
