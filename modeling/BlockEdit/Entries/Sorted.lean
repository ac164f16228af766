/-
Entries in ascending order of their names: the form in which a map whose
order carries no meaning is kept, so that two such maps are equal just
when they hold the same entries (`Ascending.ext`).

`sorted` brings any list of entries into this form, and of entries with one
name it keeps the last. It changes nothing that is ascending already
(`sorted_of_ascending`), and where names are distinct it changes no entry
(`get?_sorted`).
-/
import BlockEdit.Entries

namespace BlockEdit.Entries

variable {κ α : Type} [Ord κ]

/-- Every name is less than all names after it. -/
def Ascending (es : Entries κ α) : Prop := es.Pairwise fun x y => compare x.1 y.1 = .lt

instance (es : Entries κ α) : Decidable es.Ascending :=
  inferInstanceAs (Decidable (es.Pairwise fun x y => compare x.1 y.1 = .lt))

/-- Puts an entry in front of the first greater name. An entry of an equal
name is overwritten. -/
def place : Entries κ α → κ → α → Entries κ α
  | [], k, a => [(k, a)]
  | (k', a') :: es, k, a =>
    match compare k k' with
    | .lt => (k, a) :: (k', a') :: es
    | .eq => (k, a) :: es
    | .gt => (k', a') :: place es k a

def sorted (es : Entries κ α) : Entries κ α := es.foldl (fun done e => place done e.1 e.2) []

theorem mem_place : ∀ {es : Entries κ α} {k : κ} {a : α} {e : κ × α}, e ∈ es.place k a →
    e = (k, a) ∨ e ∈ es
  | [], k, a, e, h => .inl (List.mem_singleton.1 h)
  | (k', a') :: es, k, a, e, h => by
    rw [place] at h
    split at h
    · exact (List.mem_cons.1 h)
    · exact (List.mem_cons.1 h).imp_right (List.mem_cons_of_mem _)
    · rcases List.mem_cons.1 h with h | h
      · exact .inr (h ▸ List.mem_cons_self ..)
      · exact (mem_place h).imp_right (List.mem_cons_of_mem _)

theorem mem_of_mem_sorted {es : Entries κ α} {e : κ × α} (h : e ∈ es.sorted) : e ∈ es := by
  have go : ∀ es done : Entries κ α, e ∈ es.foldl (fun done e => place done e.1 e.2) done →
      e ∈ es ∨ e ∈ done := by
    intro es
    induction es with
    | nil => exact fun _ h => .inr h
    | cons e' es ih =>
      intro done h
      rcases ih _ h with h | h
      · exact .inl (List.mem_cons_of_mem _ h)
      · rcases mem_place h with rfl | h
        · exact .inl (List.mem_cons_self ..)
        · exact .inr h
  exact (go es [] h).resolve_right List.not_mem_nil

theorem ascending_place [Std.TransOrd κ] : ∀ {es : Entries κ α}, es.Ascending → ∀ (k : κ) (a : α),
    (es.place k a).Ascending
  | [], _, k, a => List.pairwise_singleton ..
  | (k', a') :: es, h, k, a => by
    obtain ⟨hall, hrest⟩ := List.pairwise_cons.1 h
    rw [place]
    split
    · next hlt =>
      refine List.pairwise_cons.2 ⟨fun e he => ?_, h⟩
      rcases List.mem_cons.1 he with rfl | he
      · exact hlt
      · exact Std.TransCmp.lt_trans hlt (hall e he)
    · next heq =>
      exact List.pairwise_cons.2 ⟨fun e he => Std.TransCmp.lt_of_eq_of_lt heq (hall e he), hrest⟩
    · next hgt =>
      refine List.pairwise_cons.2 ⟨fun e he => ?_, ascending_place hrest k a⟩
      rcases mem_place he with rfl | he
      · exact Std.OrientedCmp.lt_of_gt hgt
      · exact hall e he

theorem ascending_sorted [Std.TransOrd κ] (es : Entries κ α) : es.sorted.Ascending := by
  have go : ∀ (es done : Entries κ α), done.Ascending →
      (es.foldl (fun done e => place done e.1 e.2) done).Ascending := by
    intro es
    induction es with
    | nil => exact fun _ h => h
    | cons e es ih => exact fun done h => ih _ (ascending_place h ..)
  exact go es [] List.Pairwise.nil

theorem Ascending.distinct [Std.TransOrd κ] {es : Entries κ α} (h : es.Ascending) :
    es.Distinct := by
  refine List.Pairwise.map _ (fun x y hxy hk => ?_) h
  have hself : compare y.1 y.1 = .eq := Std.ReflCmp.compare_self
  rw [hk, hself] at hxy
  cases hxy

theorem distinct_sorted [Std.TransOrd κ] (es : Entries κ α) :
    es.sorted.Distinct := (ascending_sorted es).distinct

/-! ## What is read back -/

variable [DecidableEq κ]

theorem get?_place_self [Std.LawfulEqOrd κ] : ∀ (es : Entries κ α) (k : κ) (a : α),
    (es.place k a).get? k = some a
  | [], k, a => by simp [place, get?]
  | (k', a') :: es, k, a => by
    rw [place]
    split
    · simp [get?]
    · simp [get?]
    · next hgt =>
      have hk : k' ≠ k := fun e => by simp [e, Std.ReflCmp.compare_self] at hgt
      rw [get?, if_neg hk]
      exact get?_place_self es k a

theorem get?_place_of_ne [Std.LawfulEqOrd κ] : ∀ (es : Entries κ α) {k k' : κ} (a : α), k' ≠ k →
    (es.place k a).get? k' = es.get? k'
  | [], k, k', a, h => by simp [place, get?, Ne.symm h]
  | (k'', a'') :: es, k, k', a, h => by
    rw [place]
    split
    · simp [get?, Ne.symm h]
    · next heq =>
      have hk : k = k'' := Std.LawfulEqCmp.eq_of_compare heq
      subst hk
      simp [get?, Ne.symm h]
    · by_cases hk : k'' = k' <;> simp [get?, hk, get?_place_of_ne es a h]

theorem get?_place [Std.LawfulEqOrd κ] (es : Entries κ α) (k k' : κ) (a : α) :
    (es.place k a).get? k' = if k = k' then some a else es.get? k' := by
  split
  · next h => rw [h, get?_place_self]
  · next h => exact get?_place_of_ne es a (Ne.symm h)

/-- Of the entries with one name the last is read. -/
theorem get?_sorted_eq_get?_reverse [Std.LawfulEqOrd κ] (es : Entries κ α) (k : κ) :
    es.sorted.get? k = get? es.reverse k := by
  have go : ∀ es done : Entries κ α,
      get? (es.foldl (fun done e => place done e.1 e.2) done) k =
        (get? es.reverse k).or (done.get? k) := by
    intro es
    induction es with
    | nil => exact fun _ => rfl
    | cons e es ih =>
      obtain ⟨k', a⟩ := e
      intro done
      rw [List.foldl_cons, ih, get?_place, List.reverse_cons, get?_append, Option.or_assoc, get?]
      split <;> rfl
  rw [sorted, go es [], get?, Option.or_none]

theorem get?_sorted [Std.LawfulEqOrd κ] {es : Entries κ α} (h : es.Distinct) (k : κ) :
    es.sorted.get? k = es.get? k :=
  (get?_sorted_eq_get?_reverse es k).trans (get?_reverse h k)

/-- Ascending lists that read the same are the same. -/
theorem Ascending.ext [Std.TransOrd κ] : ∀ {es fs : Entries κ α}, es.Ascending → fs.Ascending →
    (∀ k, es.get? k = fs.get? k) → es = fs
  | [], [], _, _, _ => rfl
  | [], (k, a) :: fs, _, _, h => by have := h k; simp [get?] at this
  | (k, a) :: es, [], _, _, h => by have := h k; simp [get?] at this
  | (k, a) :: es, (l, b) :: fs, he, hf, h => by
    have hed := he.distinct
    have hfd := hf.distinct
    rw [Distinct, keys_cons, List.nodup_cons] at hed hfd
    obtain ⟨hea, hes⟩ := List.pairwise_cons.1 he
    obtain ⟨hfa, hfs⟩ := List.pairwise_cons.1 hf
    have hkl : k = l := by
      by_cases hkl : k = l
      · exact hkl
      have hk : (k, a) ∈ fs := by
        have := h k; simp only [get?, if_true, Ne.symm hkl, if_false] at this
        exact mem_of_get? this.symm
      have hl : (l, b) ∈ es := by
        have := h l; simp only [get?, if_true, hkl, if_false] at this
        exact mem_of_get? this
      have h1 : compare k l = .lt := hea _ hl
      have h2 : compare l k = .lt := hfa _ hk
      have hswap : compare k l = (compare l k).swap := Std.OrientedCmp.eq_swap
      rw [hswap, h2] at h1
      cases h1
    subst hkl
    have hab : a = b := by have := h k; simpa [get?] using this
    subst hab
    rw [Ascending.ext hes hfs fun k' => ?_]
    by_cases hk : k = k'
    · subst hk; rw [get?_eq_none_iff.2 hed.1, get?_eq_none_iff.2 hfd.1]
    · have := h k'; simpa [get?, hk] using this

theorem sorted_of_ascending [Std.TransOrd κ] [Std.LawfulEqOrd κ] {es : Entries κ α}
    (h : es.Ascending) : es.sorted = es :=
  (ascending_sorted es).ext h (get?_sorted h.distinct)

end BlockEdit.Entries
