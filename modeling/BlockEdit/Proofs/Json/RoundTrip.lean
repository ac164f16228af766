/-
Values written and read back: every text that writes a value is read as that
value, however deep it nests, and so is what the printer makes of it
(`parse?_of_writtenAs`, `parse?_print`).
-/
import BlockEdit.Json.Parser
import BlockEdit.Proofs.Json.Writing

namespace BlockEdit.Json

/-! ## From the tokens of a value to the value -/

/-- A value does not start with the end of an array. -/
theorem exists_tokens_eq_cons (v : Json) :
    ∃ t ts, v.tokens = t :: ts ∧ t ≠ .closeArray := by
  cases v with
  | array items => cases items <;> exact ⟨.openArray, _, rfl, nofun⟩
  | object fields => cases fields <;> exact ⟨.openObject, _, rfl, nofun⟩
  | _ => exact ⟨_, [], rfl, nofun⟩

theorem step_firstItem {t : Token} (h : t ≠ .closeArray) (frames : List Frame) :
    State.step (.firstItem frames) t = State.step (.value (.items [] :: frames)) t := by
  cases t with
  | closeArray => exact absurd rfl h
  | _ => rfl

/-- Behind an opening bracket the first item is read as any value in an array is. -/
theorem foldlM_step_firstItem (v : Json) (frames : List Frame) (ts : List Token) :
    (v.tokens ++ ts).foldlM State.step (.firstItem frames) =
      (v.tokens ++ ts).foldlM State.step (.value (.items [] :: frames)) := by
  obtain ⟨t, us, hv, ht⟩ := exists_tokens_eq_cons v
  rw [hv, List.cons_append, List.foldlM_cons, List.foldlM_cons, step_firstItem ht]

mutual
/-- Where a value may come, its tokens lead to the value, inside the same frames. -/
theorem foldlM_step_tokens (frames : List Frame) (ts : List Token) : ∀ v : Json,
    (v.tokens ++ ts).foldlM State.step (.value frames) = ts.foldlM State.step (.after v frames)
  | .null => rfl
  | .bool _ => rfl
  | .number _ => rfl
  | .string _ => rfl
  | .array [] => rfl
  | .array (item :: items) =>
    calc
      _ = (item.tokens ++ (moreItemTokens items ++ ts)).foldlM State.step (.firstItem frames) := by
        rw [tokens, List.cons_append, List.append_assoc]; rfl
      _ = (moreItemTokens items ++ ts).foldlM State.step (.after item (.items [] :: frames)) := by
        rw [foldlM_step_firstItem, foldlM_step_tokens]
      _ = _ := foldlM_step_moreItemTokens item [] frames ts items
  | .object [] => rfl
  | .object ((name, value) :: fields) =>
    calc
      _ = (value.tokens ++ (moreFieldTokens fields ++ ts)).foldlM State.step
          (.value (.fields [] name :: frames)) := by
        rw [tokens, List.cons_append, List.cons_append, List.cons_append, List.append_assoc]; rfl
      _ = (moreFieldTokens fields ++ ts).foldlM State.step
          (.after value (.fields [] name :: frames)) := foldlM_step_tokens _ _ value
      _ = _ := foldlM_step_moreFieldTokens name value [] frames ts fields

/-- Behind an item of an array the further ones are put behind those that are there. -/
theorem foldlM_step_moreItemTokens (v : Json) (before : List Json) (frames : List Frame)
    (ts : List Token) : ∀ items : List Json,
    (moreItemTokens items ++ ts).foldlM State.step (.after v (.items before :: frames)) =
      ts.foldlM State.step (.after (.array ((v :: before).reverse ++ items)) frames)
  | [] => by rw [List.append_nil]; rfl
  | item :: items =>
    calc
      _ = (item.tokens ++ (moreItemTokens items ++ ts)).foldlM State.step
          (.value (.items (v :: before) :: frames)) := by
        rw [moreItemTokens, List.cons_append, List.append_assoc]; rfl
      _ = (moreItemTokens items ++ ts).foldlM State.step
          (.after item (.items (v :: before) :: frames)) := foldlM_step_tokens _ _ item
      _ = _ := by
        rw [foldlM_step_moreItemTokens item (v :: before), List.reverse_cons, List.append_assoc]
        rfl

theorem foldlM_step_moreFieldTokens (name : String) (v : Json) (before : List (String × Json))
    (frames : List Frame) (ts : List Token) : ∀ fields : List (String × Json),
    (moreFieldTokens fields ++ ts).foldlM State.step (.after v (.fields before name :: frames)) =
      ts.foldlM State.step (.after (.object (((name, v) :: before).reverse ++ fields)) frames)
  | [] => by rw [List.append_nil]; rfl
  | (name', value) :: fields =>
    calc
      _ = (value.tokens ++ (moreFieldTokens fields ++ ts)).foldlM State.step
          (.value (.fields ((name, v) :: before) name' :: frames)) := by
        rw [moreFieldTokens, List.cons_append, List.cons_append, List.cons_append,
          List.append_assoc]
        rfl
      _ = (moreFieldTokens fields ++ ts).foldlM State.step
          (.after value (.fields ((name, v) :: before) name' :: frames)) :=
        foldlM_step_tokens _ _ value
      _ = _ := by
        rw [foldlM_step_moreFieldTokens name' value ((name, v) :: before), List.reverse_cons,
          List.append_assoc]
        rfl
end

theorem ofTokens?_tokens (v : Json) : ofTokens? v.tokens = some v := by
  have h := foldlM_step_tokens [] [] v
  rw [List.append_nil] at h
  rw [ofTokens?, h]
  rfl

/-! ## From a text to the value -/

theorem parse?_of_writtenAs {v : Json} {text : String} (h : v.WrittenAs text) :
    parse? text = some v := by
  rw [parse?, tokens?_of_writes h]
  exact ofTokens?_tokens v

theorem parse?_print (v : Json) : parse? v.print = some v := parse?_of_writtenAs v.writtenAs_print

end BlockEdit.Json
