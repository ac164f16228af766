/-
Depth-first search: what can be reached from some starting points along
`next`, each item once, an item before what it leads to and what an
earlier item leads to before any later one.

The search is told the finite set it may walk in. It ends because every
item that it lists leaves that set, so cycles are no concern
(`depthFirst_cons_of_mem`).
-/
namespace BlockEdit

variable {α : Type} [DecidableEq α]

theorem mem_of_dropWhile_eq_cons {unseen stack rest : List α} {a : α}
    (h : stack.dropWhile (· ∉ unseen) = a :: rest) : a ∈ unseen := by
  have hd := List.head?_dropWhile_not (fun a => decide (a ∉ unseen)) stack
  rw [h] at hd
  simpa using hd

def without (as : List α) (a : α) : List α := as.filter (· ≠ a)

theorem mem_without {as : List α} {a b : α} : b ∈ without as a ↔ b ∈ as ∧ b ≠ a := by
  simp [without]

theorem length_without_lt {as : List α} {a : α} (h : a ∈ as) :
    (without as a).length < as.length :=
  List.length_filter_lt_length_iff_exists.2 ⟨a, h, by simp⟩

def depthFirst (next : α → List α) (unseen stack : List α) : List α :=
  match _h : stack.dropWhile (· ∉ unseen) with
  | [] => []
  | a :: rest => a :: depthFirst next (without unseen a) (next a ++ rest)
termination_by unseen.length
decreasing_by exact length_without_lt (mem_of_dropWhile_eq_cons _h)

variable (next : α → List α) (stack : List α)

theorem depthFirst_nil (unseen : List α) : depthFirst next unseen [] = [] := by
  rw [depthFirst]; rfl

/-- What has been seen is passed over. -/
theorem depthFirst_cons_of_not_mem {unseen : List α} {a : α} (h : a ∉ unseen) :
    depthFirst next unseen (a :: stack) = depthFirst next unseen stack := by
  rw [depthFirst, depthFirst, List.dropWhile_cons_of_pos (by simpa using h)]

/-- What has not been seen is listed, and the search goes on with what it leads to. -/
theorem depthFirst_cons_of_mem {unseen : List α} {a : α} (h : a ∈ unseen) :
    depthFirst next unseen (a :: stack) =
      a :: depthFirst next (without unseen a) (next a ++ stack) := by
  rw [depthFirst]
  split
  · next hd => simp [h] at hd
  · next hd =>
    rw [List.dropWhile_cons_of_neg (by simpa using h)] at hd
    cases hd
    rfl

end BlockEdit
