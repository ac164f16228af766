/-
The texts that write given tokens. A writer has some freedom: blanks may
stand between tokens, and most characters can be written inside quotes in
more than one way. `Writes` is what all of them have in common; whatever
writes some tokens is split into just these (`tokens?_of_writes`), and the
printer is one of the writers (`Json.writtenAs_print`).

A number ends where the text does not go on with it, so it depends on what
comes behind it whether its characters write it.
-/
import BlockEdit.Json.Printer
import BlockEdit.Proofs.Json.Numerals

namespace BlockEdit.Json

variable {c : Char} {cs ws rest : List Char}

/-! ## Characters inside quotes -/

/-- The ways to write one character inside quotes: as it stands, by a backslash and one letter,
by its code unit, or by the two units of its surrogate pair. -/
inductive CharSpelling : Char → List Char → Prop where
  | self {c : Char} (printable : ¬ c < ' ') (quote : c ≠ '"') (backslash : c ≠ '\\') :
    CharSpelling c [c]
  | short {c e : Char} (named : shortEscape? e = some c) : CharSpelling c ['\\', e]
  | unit {c x₁ x₂ x₃ x₄ : Char} (code : hexUnit? x₁ x₂ x₃ x₄ = some c.toNat) :
    CharSpelling c ['\\', 'u', x₁, x₂, x₃, x₄]
  | pair {c x₁ x₂ x₃ x₄ y₁ y₂ y₃ y₄ : Char} (supplementary : 0x10000 ≤ c.toNat)
    (high : hexUnit? x₁ x₂ x₃ x₄ = some (0xD800 + (c.toNat - 0x10000) / 0x400))
    (low : hexUnit? y₁ y₂ y₃ y₄ = some (0xDC00 + (c.toNat - 0x10000) % 0x400)) :
    CharSpelling c ['\\', 'u', x₁, x₂, x₃, x₄, '\\', 'u', y₁, y₂, y₃, y₄]

/-- The ways to write a row of characters inside quotes. -/
inductive Spelling : List Char → List Char → Prop where
  | nil : Spelling [] []
  | cons {c : Char} {cs us ws : List Char} (first : CharSpelling c us) (others : Spelling cs ws) :
    Spelling (c :: cs) (us ++ ws)

theorem pieces?_self (printable : ¬ c < ' ') (quote : c ≠ '"') (backslash : c ≠ '\\')
    {ps : List Piece} (h : pieces? cs = some (ps, rest)) :
    pieces? (c :: cs) = some (.char c :: ps, rest) := by
  rw [pieces?.eq_def]
  split
  · next heq => cases heq
  · next heq => cases heq; exact absurd rfl quote
  · next heq => cases heq; exact absurd rfl backslash
  · next heq => cases heq; exact absurd rfl backslash
  · next heq =>
    cases heq
    rw [if_neg printable, h]
    rfl

theorem pieces?_short {e : Char} (named : shortEscape? e = some c) {ps : List Piece}
    (h : pieces? cs = some (ps, rest)) :
    pieces? ('\\' :: e :: cs) = some (.char c :: ps, rest) := by
  have hu : e ≠ 'u' := by
    rintro rfl
    cases named
  rw [pieces?.eq_def]
  split
  · next heq => cases heq
  · next heq => cases heq
  · next heq => cases heq; exact absurd rfl hu
  · next heq => cases heq; rw [named, h]; rfl
  · next hother heq => cases heq; exact (hother e cs rfl rfl).elim

theorem pieces?_unit {x₁ x₂ x₃ x₄ : Char} {code : Nat} (hx : hexUnit? x₁ x₂ x₃ x₄ = some code)
    {ps : List Piece} (h : pieces? cs = some (ps, rest)) :
    pieces? ('\\' :: 'u' :: x₁ :: x₂ :: x₃ :: x₄ :: cs) = some (.unit code :: ps, rest) := by
  rw [pieces?, hx, h]
  rfl

/-- No character is half of a surrogate pair. -/
theorem not_surrogate (c : Char) :
    isHighSurrogate c.toNat = false ∧ isLowSurrogate c.toNat = false := by
  have hvalid : c.toNat < 0xD800 ∨ 0xDFFF < c.toNat ∧ c.toNat < 0x110000 := c.valid
  simp only [isHighSurrogate, isLowSurrogate, Bool.and_eq_false_iff, decide_eq_false_iff_not]
  omega

theorem joinPieces?_unit {ps : List Piece} (h : joinPieces? ps = some cs) :
    joinPieces? (.unit c.toNat :: ps) = some (c :: cs) := by
  obtain ⟨hhigh, hlow⟩ := not_surrogate c
  rw [joinPieces?.eq_def]
  split
  · next heq => cases heq
  · next heq => cases heq
  -- Another unit behind it changes nothing: there is no pair to join.
  · next heq =>
    cases heq
    simp [hhigh, hlow, h]
  · next heq =>
    cases heq
    simp [hhigh, hlow, h]

theorem joinPieces?_pair (hc : 0x10000 ≤ c.toNat) {ps : List Piece} (h : joinPieces? ps = some cs) :
    joinPieces? (.unit (0xD800 + (c.toNat - 0x10000) / 0x400) ::
      .unit (0xDC00 + (c.toNat - 0x10000) % 0x400) :: ps) = some (c :: cs) := by
  have hvalid : c.toNat < 0xD800 ∨ 0xDFFF < c.toNat ∧ c.toNat < 0x110000 := c.valid
  have hhigh : isHighSurrogate (0xD800 + (c.toNat - 0x10000) / 0x400) = true := by
    simp only [isHighSurrogate, Bool.and_eq_true, decide_eq_true_eq]
    omega
  have hlow : isLowSurrogate (0xDC00 + (c.toNat - 0x10000) % 0x400) = true := by
    simp only [isLowSurrogate, Bool.and_eq_true, decide_eq_true_eq]
    omega
  have hcode : 0x10000 + (0xD800 + (c.toNat - 0x10000) / 0x400 - 0xD800) * 0x400 +
      (0xDC00 + (c.toNat - 0x10000) % 0x400 - 0xDC00) = c.toNat := by omega
  rw [joinPieces?, hhigh, hlow, h, hcode, Char.ofNat_toNat]
  rfl

/-- Whatever way a character is written in, it is read as that character. -/
theorem CharSpelling.read (h : CharSpelling c ws) :
    ∃ ps, (∀ {cs qs rest}, pieces? cs = some (qs, rest) →
        pieces? (ws ++ cs) = some (ps ++ qs, rest)) ∧
      ∀ {qs cs}, joinPieces? qs = some cs → joinPieces? (ps ++ qs) = some (c :: cs) := by
  cases h with
  | self printable quote backslash =>
    refine ⟨[.char c], pieces?_self printable quote backslash, fun h => ?_⟩
    rw [List.singleton_append, joinPieces?, h]
    rfl
  | short named =>
    refine ⟨[.char c], pieces?_short named, fun h => ?_⟩
    rw [List.singleton_append, joinPieces?, h]
    rfl
  | unit code => exact ⟨[.unit c.toNat], pieces?_unit code, joinPieces?_unit⟩
  | pair supplementary high low =>
    exact ⟨[.unit _, .unit _], fun h => pieces?_unit high (pieces?_unit low h),
      joinPieces?_pair supplementary⟩

/-- A row of characters and the quotation mark that ends it are read as these characters. -/
theorem Spelling.read (h : Spelling cs ws) (rest : List Char) :
    ∃ ps, pieces? (ws ++ '"' :: rest) = some (ps, rest) ∧ joinPieces? ps = some cs := by
  induction h with
  | nil => exact ⟨[], rfl, rfl⟩
  | cons first _ ih =>
    obtain ⟨ps, hpieces, hjoin⟩ := first.read
    obtain ⟨qs, hqs, hcs⟩ := ih
    refine ⟨ps ++ qs, ?_, hjoin hcs⟩
    rw [List.append_assoc]
    exact hpieces hqs

/-! ## As the printer writes them -/

theorem hexUnit?_hexDigit {n : Nat} (h : n < 32) :
    hexUnit? '0' '0' (hexDigit (n / 16)) (hexDigit (n % 16)) = some n := by
  revert n
  decide

theorem charSpelling_quotedChar (c : Char) : CharSpelling c (quotedChar c) := by
  rw [quotedChar]
  split
  · next h => subst h; exact .short rfl
  split
  · next h => subst h; exact .short rfl
  split
  · next h => exact .unit (hexUnit?_hexDigit (UInt32.lt_iff_toNat_lt.1 h))
  · exact .self ‹_› ‹_› ‹_›

theorem spelling_quotedChar : ∀ cs, Spelling cs (cs.flatMap quotedChar)
  | [] => .nil
  | c :: cs => .cons (charSpelling_quotedChar c) (spelling_quotedChar cs)

/-! ## Tokens -/

/-- The ways to write a token: a string with any of its spellings, and others as they stand. -/
inductive Token.Spelling : Token → List Char → Prop where
  | string {s : String} {ws : List Char} (h : Json.Spelling s.toList ws) :
    Token.Spelling (.string s) ('"' :: (ws ++ ['"']))
  | plain (t : Token) : Token.Spelling t t.chars

/-- Behind the token the text does not go on with it. -/
def Token.EndsBefore : Token → List Char → Prop
  | .number _, rest => EndsNumeral rest
  | _, _ => True

theorem token?_string {s : String} (h : Spelling s.toList ws) (rest : List Char) :
    token? ('"' :: (ws ++ ['"']) ++ rest) = some (.string s, rest) := by
  obtain ⟨ps, hpieces, hjoin⟩ := h.read rest
  rw [List.cons_append, List.append_assoc, List.singleton_append, token?]
  simp only [hpieces, hjoin, Option.bind_eq_bind, Option.bind_some, String.ofList_toList]
  rfl

theorem token?_number (n : Numeral) (h : EndsNumeral rest) :
    token? (numeralChars n ++ rest) = some (.number n, rest) := by
  obtain ⟨c, cs, heq, hc⟩ := exists_numeralChars_eq_cons n
  have hread := numeral?_numeralChars n h
  rw [heq, List.cons_append] at hread ⊢
  rw [token?.eq_def]
  dsimp only
  split
  case h_8 => rw [if_pos hc, hread]; rfl
  all_goals (rcases hc with hc | hc <;> cases hc)

theorem token?_plain (t : Token) (h : t.EndsBefore rest) :
    token? (t.chars ++ rest) = some (t, rest) := by
  cases t with
  | number n => exact token?_number n h
  | string s => exact token?_string (spelling_quotedChar s.toList) rest
  | bool b => cases b <;> rfl
  | _ => rfl

theorem Token.Spelling.read {t : Token} (h : t.Spelling ws) (hends : t.EndsBefore rest) :
    token? (ws ++ rest) = some (t, rest) := by
  cases h with
  | string h => exact token?_string h rest
  | plain => exact token?_plain t hends

/-- No token starts with a blank. -/
theorem token?_of_isBlank (h : isBlank c = true) : token? (c :: cs) = none := by
  simp only [isBlank, Bool.or_eq_true, decide_eq_true_eq] at h
  rcases h with ((rfl | rfl) | rfl) | rfl <;> rfl

/-! ## Texts -/

/-- The text writes the tokens: one after the other, with blanks around them or not. -/
inductive Writes : List Char → List Token → Prop where
  | nil : Writes [] []
  | blank {c : Char} {cs : List Char} {ts : List Token} (h : isBlank c = true)
    (others : Writes cs ts) : Writes (c :: cs) ts
  | token {t : Token} {ws cs : List Char} {ts : List Token} (first : t.Spelling ws)
    (ends : t.EndsBefore cs) (others : Writes cs ts) : Writes (ws ++ cs) (t :: ts)

theorem tokens?_of_token? {t : Token} (h : token? cs = some (t, rest)) :
    tokens? cs = (tokens? rest).map (t :: ·) := by
  cases cs with
  | nil => cases h
  | cons c cs =>
    have hblank : isBlank c = false := by
      refine Bool.eq_false_iff.2 fun hb => ?_
      rw [token?_of_isBlank hb] at h
      cases h
    rw [tokens?, hblank, if_neg Bool.false_ne_true]
    split
    · next h' => rw [h] at h'; cases h'
    · next h' => rw [h] at h'; cases h'; rfl

/-- A text that writes some tokens is split into them. -/
theorem tokens?_of_writes {ts : List Token} (h : Writes cs ts) : tokens? cs = some ts := by
  induction h with
  | nil => rw [tokens?]
  | blank hb _ ih => rw [tokens?, if_pos hb, ih]
  | token first ends _ ih => rw [tokens?_of_token? (first.read ends), ih]; rfl

/-! ## What the printer writes -/

theorem EndsNumeral.cons (h : c.isDigit = false ∧ c ≠ '.' ∧ c ≠ 'e' ∧ c ≠ 'E') :
    EndsNumeral (c :: cs) := by
  intro c' hc
  cases hc
  exact h

/-- The tokens as the printer writes them. -/
def Printed (ts : List Token) : Prop := Writes (ts.flatMap Token.chars) ts

theorem Printed.cons {t : Token} {ts : List Token} (ends : t.EndsBefore (ts.flatMap Token.chars))
    (h : Printed ts) : Printed (t :: ts) := Writes.token (.plain t) ends h

theorem endsNumeral_moreItemTokens (items : List Json) (ts : List Token) :
    EndsNumeral ((moreItemTokens items ++ ts).flatMap Token.chars) := by
  cases items with
  | nil => exact .cons (by decide)
  | cons item items => exact .cons (by decide)

theorem endsNumeral_moreFieldTokens (fields : List (String × Json)) (ts : List Token) :
    EndsNumeral ((moreFieldTokens fields ++ ts).flatMap Token.chars) := by
  cases fields with
  | nil => exact .cons (by decide)
  | cons f fields => exact .cons (by decide)

mutual
-- What comes behind a value is left open, as the items and fields behind it differ from case to
-- case; all that matters of it is that it ends a number.
/-- A value is written in front of what is written, if that does not go on with a number. -/
theorem printed_tokens {ts : List Token} (h : Printed ts)
    (hends : EndsNumeral (ts.flatMap Token.chars)) : ∀ v : Json, Printed (v.tokens ++ ts)
  | .null => .cons trivial h
  | .bool _ => .cons trivial h
  | .number _ => .cons hends h
  | .string _ => .cons trivial h
  | .array [] => .cons trivial (.cons trivial h)
  | .array (item :: items) => by
    rw [tokens, List.cons_append, List.append_assoc]
    exact .cons trivial (printed_tokens (printed_moreItemTokens h items)
      (endsNumeral_moreItemTokens items ts) item)
  | .object [] => .cons trivial (.cons trivial h)
  | .object ((_, value) :: fields) => by
    rw [tokens, List.cons_append, List.cons_append, List.cons_append, List.append_assoc]
    exact .cons trivial (.cons trivial (.cons trivial (printed_tokens
      (printed_moreFieldTokens h fields) (endsNumeral_moreFieldTokens fields ts) value)))

theorem printed_moreItemTokens {ts : List Token} (h : Printed ts) :
    ∀ items : List Json, Printed (moreItemTokens items ++ ts)
  | [] => .cons trivial h
  | item :: items => by
    rw [moreItemTokens, List.cons_append, List.append_assoc]
    exact .cons trivial (printed_tokens (printed_moreItemTokens h items)
      (endsNumeral_moreItemTokens items ts) item)

theorem printed_moreFieldTokens {ts : List Token} (h : Printed ts) :
    ∀ fields : List (String × Json), Printed (moreFieldTokens fields ++ ts)
  | [] => .cons trivial h
  | (_, value) :: fields => by
    rw [moreFieldTokens, List.cons_append, List.cons_append, List.cons_append, List.append_assoc]
    exact .cons trivial (.cons trivial (.cons trivial (printed_tokens
      (printed_moreFieldTokens h fields) (endsNumeral_moreFieldTokens fields ts) value)))
end

/-- The text writes the value: its tokens in their order, whatever the blanks between them and
the escapes inside quotes. -/
def WrittenAs (v : Json) (text : String) : Prop := Writes text.toList v.tokens

theorem writtenAs_print (v : Json) : v.WrittenAs v.print := by
  have hnil : Printed [] := .nil
  have h := printed_tokens hnil (fun _ hc => nomatch hc) v
  rw [List.append_nil] at h
  rw [WrittenAs, print, String.toList_ofList]
  exact h

end BlockEdit.Json
