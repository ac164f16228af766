/-
Named entries in the order their names were first put in. The properties
and the child groups of a node are such lists, and so are the types of a
grammar.

Reading goes through `get?`, which answers the first entry of a name.
`put` overwrites in place, so it never makes a name occur twice: a list
built from `[]` by `put` has distinct names (`distinct_put`), and from then
on `get?` says all there is to say about an entry
(`get?_eq_some_iff_mem`).
-/
namespace BlockEdit

abbrev Entries (κ α : Type) := List (κ × α)

namespace Entries

variable {κ α : Type}

def keys (es : Entries κ α) : List κ := es.map (·.1)

/-- No name occurs twice. -/
def Distinct (es : Entries κ α) : Prop := es.keys.Nodup

@[simp] theorem keys_nil : keys ([] : Entries κ α) = [] := rfl
@[simp] theorem keys_cons (k : κ) (a : α) (es : Entries κ α) :
    keys ((k, a) :: es) = k :: keys es := rfl

theorem keys_map {β : Type} (f : α → β) (es : Entries κ α) :
    keys (es.map fun e => (e.1, f e.2)) = es.keys := by
  simp [keys, Function.comp_def]

theorem distinct_map {β : Type} {es : Entries κ α} (h : es.Distinct) (f : α → β) :
    Distinct (es.map fun e => (e.1, f e.2)) := by
  rwa [Distinct, keys_map]

variable [DecidableEq κ]

instance (es : Entries κ α) : Decidable es.Distinct :=
  inferInstanceAs (Decidable es.keys.Nodup)

def get? : Entries κ α → κ → Option α
  | [], _ => none
  | (k', a) :: es, k => if k' = k then some a else get? es k

def has (es : Entries κ α) (k : κ) : Bool := (es.get? k).isSome

/-- Overwrites the entry of this name in place, or adds one at the end. -/
def put : Entries κ α → κ → α → Entries κ α
  | [], k, a => [(k, a)]
  | (k', a') :: es, k, a => if k' = k then (k, a) :: es else (k', a') :: put es k a

/-- Takes the entry of this name out; the others keep their order. -/
def remove (es : Entries κ α) (k : κ) : Entries κ α := es.filter fun e => e.1 ≠ k

/-- Gives the entry `old` the name `new` where it stands. Another entry that
already had the name `new` is lost. -/
def rename (es : Entries κ α) (old new : κ) : Entries κ α :=
  (es.filter fun e => e.1 ≠ new ∨ old = new).map fun e => (if e.1 = old then new else e.1, e.2)

theorem remove_cons (k k' : κ) (a : α) (es : Entries κ α) :
    remove ((k', a) :: es) k = if k' = k then es.remove k else (k', a) :: es.remove k := by
  by_cases h : k' = k
  · simp [remove, h]
  · simp [remove, h]

theorem rename_cons (k old new : κ) (a : α) (es : Entries κ α) :
    rename ((k, a) :: es) old new =
      if k = old then (new, a) :: es.rename old new
      else if k = new then es.rename old new
      else (k, a) :: es.rename old new := by
  by_cases hold : k = old
  · subst hold
    simp [rename]
  · by_cases hnew : k = new
    · subst hnew
      simp [rename, hold, Ne.symm hold]
    · simp [rename, hold, hnew]

/-! ## What is read back -/

theorem get?_eq_none_iff {es : Entries κ α} {k : κ} : es.get? k = none ↔ k ∉ es.keys := by
  induction es with
  | nil => simp [get?]
  | cons e es ih =>
    obtain ⟨k', a⟩ := e
    by_cases h : k' = k
    · simp [get?, h]
    · simp [get?, h, ih, Ne.symm h]

theorem has_iff {es : Entries κ α} {k : κ} : es.has k = true ↔ k ∈ es.keys := by
  rw [has, Option.isSome_iff_ne_none, ne_eq, get?_eq_none_iff, Classical.not_not]

theorem mem_of_get? : ∀ {es : Entries κ α} {k : κ} {a : α}, es.get? k = some a → (k, a) ∈ es
  | (k', a') :: es, k, a, h => by
    rw [get?] at h
    split at h
    · next hk => cases h; simp [hk]
    · exact List.mem_cons_of_mem _ (mem_of_get? h)

theorem get?_of_mem : ∀ {es : Entries κ α} {k : κ} {a : α}, es.Distinct → (k, a) ∈ es →
    es.get? k = some a
  | (k', a') :: es, k, a, hd, h => by
    rw [Distinct, keys_cons, List.nodup_cons] at hd
    rw [get?]
    rcases List.mem_cons.1 h with h | h
    · cases h; simp
    · have hk : k' ≠ k := fun e => hd.1 (e ▸ List.mem_map_of_mem (f := (·.1)) h)
      rw [if_neg hk]
      exact get?_of_mem hd.2 h

/-- Where names are distinct, an entry is there just when `get?` reads it. -/
theorem get?_eq_some_iff_mem {es : Entries κ α} (hd : es.Distinct) {k : κ} {a : α} :
    es.get? k = some a ↔ (k, a) ∈ es :=
  ⟨mem_of_get?, get?_of_mem hd⟩

/-- Changing the values changes what is read alike. -/
theorem get?_map {β : Type} (f : α → β) (es : Entries κ α) (k : κ) :
    get? (es.map fun e => (e.1, f e.2)) k = (es.get? k).map f := by
  induction es with
  | nil => rfl
  | cons e es ih =>
    obtain ⟨k', a⟩ := e
    by_cases h : k' = k <;> simp [get?, h, ih]

theorem get?_append (es fs : Entries κ α) (k : κ) :
    get? (es ++ fs) k = (es.get? k).or (fs.get? k) := by
  induction es with
  | nil => rfl
  | cons e es ih =>
    rw [List.cons_append, get?, get?, ih]
    split <;> rfl

theorem get?_flatMap {β : Type} (f : β → Entries κ α) (bs : List β) (k : κ) :
    get? (bs.flatMap f) k = bs.findSome? fun b => (f b).get? k := by
  induction bs with
  | nil => rfl
  | cons b bs ih =>
    rw [List.flatMap_cons, get?_append, ih, List.findSome?_cons]
    cases (f b).get? k <;> rfl

omit [DecidableEq κ] in
theorem Distinct.reverse {es : Entries κ α} (h : es.Distinct) : Distinct es.reverse := by
  rw [Distinct, keys, List.map_reverse]
  exact List.pairwise_reverse.2 (List.Pairwise.imp Ne.symm h)

theorem get?_reverse {es : Entries κ α} (h : es.Distinct) (k : κ) :
    get? es.reverse k = es.get? k := by
  refine Option.ext fun a => ?_
  rw [get?_eq_some_iff_mem h.reverse, List.mem_reverse, get?_eq_some_iff_mem h]

/-! ## Writing -/

theorem get?_put_self (es : Entries κ α) (k : κ) (a : α) : (es.put k a).get? k = some a := by
  induction es with
  | nil => simp [put, get?]
  | cons e es ih =>
    obtain ⟨k', a'⟩ := e
    by_cases h : k' = k <;> simp [put, get?, h, ih]

theorem get?_put_of_ne (es : Entries κ α) {k k' : κ} (a : α) (h : k' ≠ k) :
    (es.put k a).get? k' = es.get? k' := by
  induction es with
  | nil => simp [put, get?, Ne.symm h]
  | cons e es ih =>
    obtain ⟨k'', a''⟩ := e
    by_cases h' : k'' = k
    · subst h'; simp [put, get?, Ne.symm h]
    · by_cases h'' : k'' = k' <;> simp [put, get?, h', h'', ih, h]

/-- `put` keeps the order of the names, and a new name comes last. -/
theorem keys_put (es : Entries κ α) (k : κ) (a : α) :
    (es.put k a).keys = if k ∈ es.keys then es.keys else es.keys ++ [k] := by
  induction es with
  | nil => simp [put, keys]
  | cons e es ih =>
    obtain ⟨k', a'⟩ := e
    by_cases h : k' = k
    · simp [put, h]
    · by_cases hk : k ∈ keys es <;> simp [put, h, ih, hk, Ne.symm h]

theorem put_put (es : Entries κ α) (k : κ) (a b : α) : (es.put k a).put k b = es.put k b := by
  induction es with
  | nil => simp [put]
  | cons e es ih =>
    obtain ⟨k', a'⟩ := e
    by_cases h : k' = k <;> simp [put, h, ih]

theorem put_get? {es : Entries κ α} {k : κ} {a : α} (h : es.get? k = some a) : es.put k a = es := by
  induction es with
  | nil => simp [get?] at h
  | cons e es ih =>
    obtain ⟨k', a'⟩ := e
    by_cases hk : k' = k
    · simp only [get?, hk, if_true, Option.some.injEq] at h
      simp [put, hk, h]
    · simp only [get?, hk, if_false] at h
      simp [put, hk, ih h]

/-- An entry that nothing comes of may be put in, or put in the place of another such. -/
theorem flatMap_put {β : Type} {f : κ × α → List β} {k : κ} (h : ∀ a, f (k, a) = [])
    (es : Entries κ α) (a : α) : (es.put k a).flatMap f = es.flatMap f := by
  induction es with
  | nil => simp [put, h]
  | cons e es ih =>
    obtain ⟨k', a'⟩ := e
    by_cases hk : k' = k
    · subst hk; simp [put, h]
    · simp [put, hk, ih]

theorem mem_put {es : Entries κ α} {k : κ} {a : α} {e : κ × α} (h : e ∈ es.put k a) :
    e = (k, a) ∨ e ∈ es := by
  induction es with
  | nil => exact .inl (List.mem_singleton.1 h)
  | cons e' es ih =>
    obtain ⟨k', a'⟩ := e'
    rw [put] at h
    split at h
    · rcases List.mem_cons.1 h with h | h
      · exact .inl h
      · exact .inr (List.mem_cons_of_mem _ h)
    · rcases List.mem_cons.1 h with h | h
      · exact .inr (h ▸ List.mem_cons_self ..)
      · exact (ih h).imp_right (List.mem_cons_of_mem _)

/-! ## Distinct names are kept -/

omit [DecidableEq κ] in
theorem distinct_nil : Distinct ([] : Entries κ α) := List.nodup_nil

theorem distinct_put {es : Entries κ α} (h : es.Distinct) (k : κ) (a : α) :
    (es.put k a).Distinct := by
  rw [Distinct, keys_put]
  split
  · exact h
  · next hk =>
    refine List.nodup_append.2 ⟨h, by simp, fun x hx y hy => ?_⟩
    rw [List.mem_singleton.1 hy]
    exact fun e => hk (e ▸ hx)

theorem keys_remove (es : Entries κ α) (k : κ) : (es.remove k).keys = es.keys.filter (· ≠ k) := by
  simp [remove, keys, List.filter_map, Function.comp_def]

theorem distinct_remove {es : Entries κ α} (h : es.Distinct) (k : κ) : (es.remove k).Distinct := by
  rw [Distinct, keys_remove]
  exact List.Nodup.sublist List.filter_sublist h

theorem keys_rename (es : Entries κ α) (old new : κ) :
    (es.rename old new).keys =
      (es.keys.filter fun k => k ≠ new ∨ old = new).map fun k => if k = old then new else k := by
  simp [rename, keys, List.filter_map, Function.comp_def]

theorem distinct_rename {es : Entries κ α} (h : es.Distinct) (old new : κ) :
    (es.rename old new).Distinct := by
  rw [Distinct, keys_rename]
  refine List.Pairwise.map _ (R := fun a b => a ≠ b ∧ (a ≠ new ∨ old = new) ∧ (b ≠ new ∨ old = new))
    ?_ ?_
  · rintro a b ⟨hab, ha, hb⟩
    by_cases ha' : a = old <;> by_cases hb' : b = old <;> grind
  · have hf := List.Nodup.sublist (List.filter_sublist (p := fun k => k ≠ new ∨ old = new)) h
    refine List.Pairwise.imp_of_mem ?_ hf
    intro a b ha hb hab
    exact ⟨hab, by simpa using (List.mem_filter.1 ha).2, by simpa using (List.mem_filter.1 hb).2⟩

end Entries
end BlockEdit
