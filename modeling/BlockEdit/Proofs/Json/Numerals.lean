/-
Numerals read back: a number that is written and followed by nothing that
would go on with it is read as that number, and reading stops behind it
(`numeral?_numeralChars`).
-/
import BlockEdit.Json.Lexer

namespace BlockEdit.Json

variable {cs ds : List Char}

/-- No digit comes next. -/
def EndsDigits (cs : List Char) : Prop := ∀ c ∈ cs.head?, c.isDigit = false

/-- Nothing comes next that a numeral could go on with. -/
def EndsNumeral (cs : List Char) : Prop :=
  ∀ c ∈ cs.head?, c.isDigit = false ∧ c ≠ '.' ∧ c ≠ 'e' ∧ c ≠ 'E'

theorem EndsNumeral.endsDigits (h : EndsNumeral cs) : EndsDigits cs := fun c hc => (h c hc).1

/-! ## Digits -/

theorem value_toDigits (n : Nat) : Digits.value (Nat.toDigits 10 n) = n :=
  Nat.ofDigitChars_eq_foldl.symm.trans Nat.ofDigitChars_ten_toDigits

theorem isDigit_of_mem_toDigits {n : Nat} {c : Char} (h : c ∈ Nat.toDigits 10 n) :
    c.isDigit = true := Nat.isDigit_of_mem_toDigits (by decide) (by decide) h

theorem exists_toDigits_eq_cons (n : Nat) :
    ∃ d ds, Nat.toDigits 10 n = d :: ds ∧ d.isDigit = true := by
  cases h : Nat.toDigits 10 n with
  | nil => exact absurd h Nat.toDigits_ne_nil
  | cons d ds => exact ⟨d, ds, rfl, isDigit_of_mem_toDigits (h ▸ List.mem_cons_self ..)⟩

theorem toDigits_append_ne {c : Char} (h : c.isDigit = false) {n : Nat} {rest : List Char} :
    Nat.toDigits 10 n ++ rest ≠ c :: cs := by
  obtain ⟨d, ds, hd, hdigit⟩ := exists_toDigits_eq_cons n
  rw [hd]
  intro heq
  rw [(List.cons.inj heq).1, h] at hdigit
  cases hdigit

theorem digits?_append (hne : ds ≠ []) (hds : ∀ d ∈ ds, d.isDigit = true) (h : EndsDigits cs) :
    digits? (ds ++ cs) = some (ds, cs) := by
  have htake : cs.takeWhile Char.isDigit = [] := by
    cases cs with
    | nil => rfl
    | cons c cs => rw [List.takeWhile_cons, h c rfl]; rfl
  have hdrop : cs.dropWhile Char.isDigit = cs := by
    cases cs with
    | nil => rfl
    | cons c cs => rw [List.dropWhile_cons, h c rfl]; rfl
  rw [digits?, List.takeWhile_append_of_pos hds, List.dropWhile_append_of_pos hds, htake, hdrop,
    List.append_nil]
  cases ds with
  | nil => exact absurd rfl hne
  | cons d ds => rfl

theorem digits?_toDigits (n : Nat) (h : EndsDigits cs) :
    digits? (Nat.toDigits 10 n ++ cs) = some (Nat.toDigits 10 n, cs) :=
  digits?_append Nat.toDigits_ne_nil (fun _ => isDigit_of_mem_toDigits) h

/-- The digits of a number that is not zero start with another digit. -/
theorem toDigits_ne_zero_cons {n : Nat} (h : n ≠ 0) (ds : List Char) :
    Nat.toDigits 10 n ≠ '0' :: ds := by
  induction n using Nat.strongRecOn generalizing ds with
  | ind n ih =>
    by_cases hlt : n < 10
    · rw [Nat.toDigits_of_lt_base hlt]
      have hzero : ∀ m < 10, m.digitChar = '0' → m = 0 := by decide
      exact fun he => h (hzero n hlt (List.cons.inj he).1)
    · rw [Nat.toDigits_of_base_le (by decide) (by omega)]
      have hdiv : n / 10 ≠ 0 := by omega
      obtain ⟨d, ds', hd, -⟩ := exists_toDigits_eq_cons (n / 10)
      rw [hd]
      intro he
      exact ih (n / 10) (by omega) hdiv ds' ((List.cons.inj he).1 ▸ hd)

theorem integerPart?_toDigits (n : Nat) (h : EndsDigits cs) :
    integerPart? (Nat.toDigits 10 n ++ cs) = some (Nat.toDigits 10 n, cs) := by
  by_cases hn : n = 0
  · subst hn
    rfl
  · rw [integerPart?.eq_def]
    split
    · next rest heq =>
      obtain ⟨d, ds, hd, -⟩ := exists_toDigits_eq_cons n
      rw [hd] at heq
      exact absurd ((List.cons.inj heq).1 ▸ hd) (toDigits_ne_zero_cons hn ds)
    · exact digits?_toDigits n h

/-! ## Signs -/

theorem toList_toString_of_nonneg {n : Int} (h : 0 ≤ n) :
    (toString n).toList = Nat.toDigits 10 n.toNat := by
  rw [Int.toString_eq_repr, Int.repr_eq_if, if_pos h, Nat.toList_repr]

theorem toList_toString_of_neg {n : Int} (h : n < 0) :
    (toString n).toList = '-' :: Nat.toDigits 10 (-n).toNat := by
  rw [Int.toString_eq_repr, Int.repr_eq_if, if_neg (by omega), String.toList_append, Nat.toList_repr]
  rfl

theorem signedDigits?_toString (n : Int) (h : EndsDigits cs) :
    signedDigits? ((toString n).toList ++ cs) = some (n, cs) := by
  by_cases hn : 0 ≤ n
  · rw [toList_toString_of_nonneg hn, signedDigits?.eq_def]
    split
    · next heq => exact absurd heq (toDigits_append_ne (by decide))
    · next heq => exact absurd heq (toDigits_append_ne (by decide))
    · simp only [digits?_toDigits _ h, Option.map_some, value_toDigits, Int.toNat_of_nonneg hn]
  · have hback : -((-n).toNat : Int) = n := by omega
    rw [toList_toString_of_neg (by omega), List.cons_append, signedDigits?, digits?_toDigits _ h]
    simp only [Option.map_some, value_toDigits, hback]

/-! ## Numerals -/

theorem fraction?_of_ne (h : ∀ c ∈ cs.head?, c ≠ '.') : fraction? cs = some (none, cs) := by
  rw [fraction?.eq_def]
  split
  · exact absurd rfl (h _ rfl)
  · rfl

theorem exponent?_of_ne (h : ∀ c ∈ cs.head?, c ≠ 'e' ∧ c ≠ 'E') :
    exponent? cs = some (none, cs) := by
  cases cs with
  | nil => rfl
  | cons c cs =>
    obtain ⟨he, hE⟩ := h c rfl
    rw [exponent?, if_neg (by simp [he, hE])]

theorem unsignedNumeral?_whole (negative : Bool) (n : Nat) (h : EndsNumeral cs) :
    unsignedNumeral? negative (Nat.toDigits 10 n ++ cs) =
      some (.whole (if negative then -(n : Int) else n), cs) := by
  have hfraction := fraction?_of_ne fun c hc => (h c hc).2.1
  have hexponent := exponent?_of_ne fun c hc => (h c hc).2.2
  simp only [unsignedNumeral?, integerPart?_toDigits n h.endsDigits, hfraction, hexponent,
    value_toDigits, Option.bind_eq_bind, Option.bind_some]
  rfl

theorem unsignedNumeral?_decimal (negative : Bool) (mantissa : Nat) (exponent : Int)
    (h : EndsNumeral cs) : unsignedNumeral? negative
      (Nat.toDigits 10 mantissa ++ 'e' :: ((toString exponent).toList ++ cs)) =
        some (.decimal negative mantissa exponent, cs) := by
  have hfraction : ∀ rest, fraction? ('e' :: rest) = some (none, 'e' :: rest) := fun _ => rfl
  have hexponent : exponent? ('e' :: ((toString exponent).toList ++ cs)) =
      some (some exponent, cs) := by
    rw [exponent?, if_pos (.inl rfl), signedDigits?_toString exponent h.endsDigits]
    rfl
  have hends : EndsDigits ('e' :: ((toString exponent).toList ++ cs)) := by
    intro c hc
    cases hc
    rfl
  simp only [unsignedNumeral?, integerPart?_toDigits mantissa hends, hfraction, hexponent,
    Option.getD_none, Option.getD_some, List.append_nil, value_toDigits, List.length_nil,
    Int.natCast_zero, Int.sub_zero, Option.bind_eq_bind, Option.bind_some]
  rfl

theorem numeral?_toDigits_append (n : Nat) (rest : List Char) :
    numeral? (Nat.toDigits 10 n ++ rest) = unsignedNumeral? false (Nat.toDigits 10 n ++ rest) := by
  rw [numeral?.eq_def]
  split
  · next heq => exact absurd heq (toDigits_append_ne (by decide))
  · rfl

/-- A numeral is read back, with what comes behind it left over. -/
theorem numeral?_numeralChars (n : Numeral) (h : EndsNumeral cs) :
    numeral? (numeralChars n ++ cs) = some (n, cs) := by
  cases n with
  | whole n =>
    rw [numeralChars]
    by_cases hn : 0 ≤ n
    · rw [toList_toString_of_nonneg hn, numeral?_toDigits_append, unsignedNumeral?_whole _ _ h,
        if_neg (by decide), Int.toNat_of_nonneg hn]
    · have hback : -((-n).toNat : Int) = n := by omega
      rw [toList_toString_of_neg (by omega), List.cons_append, numeral?,
        unsignedNumeral?_whole _ _ h, if_pos rfl, hback]
  | decimal negative mantissa exponent =>
    have hmantissa : (toString mantissa).toList = Nat.toDigits 10 mantissa := Nat.toList_repr
    rw [numeralChars, hmantissa]
    cases negative with
    | false =>
      simp only [Bool.false_eq_true, if_false, List.nil_append, List.append_assoc,
        List.cons_append]
      rw [numeral?_toDigits_append, unsignedNumeral?_decimal _ _ _ h]
    | true =>
      simp only [if_true, List.cons_append, List.nil_append, List.append_assoc]
      rw [numeral?, unsignedNumeral?_decimal _ _ _ h]

/-- A numeral starts with a sign or a digit. -/
theorem exists_numeralChars_eq_cons (n : Numeral) :
    ∃ c cs, numeralChars n = c :: cs ∧ (c = '-' ∨ c.isDigit = true) := by
  cases n with
  | whole n =>
    rw [numeralChars]
    by_cases hn : 0 ≤ n
    · obtain ⟨d, ds, hd, hdigit⟩ := exists_toDigits_eq_cons n.toNat
      exact ⟨d, ds, by rw [toList_toString_of_nonneg hn, hd], .inr hdigit⟩
    · exact ⟨'-', _, toList_toString_of_neg (by omega), .inl rfl⟩
  | decimal negative mantissa exponent =>
    cases negative with
    | false =>
      obtain ⟨d, ds, hd, hdigit⟩ := exists_toDigits_eq_cons mantissa
      have hmantissa : (toString mantissa).toList = d :: ds := Nat.toList_repr.trans hd
      refine ⟨d, ds ++ 'e' :: (toString exponent).toList, ?_, .inr hdigit⟩
      rw [numeralChars, hmantissa]
      rfl
    | true => exact ⟨'-', _, rfl, .inl rfl⟩

end BlockEdit.Json
