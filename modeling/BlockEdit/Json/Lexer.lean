/-
Splitting a JSON text into tokens. Between tokens stand any number of
blanks: space, tab, line feed and carriage return. A text with anything
else in it that starts no token has no tokens at all.

A string is read in two stages. The first finds its end and takes the
escapes apart; an escape `\uXXXX` names a UTF-16 code unit. The second
joins the two units of a surrogate pair into the character they encode, and
refuses a surrogate that stands alone.
-/
import BlockEdit.Digits
import BlockEdit.Json.Token

namespace BlockEdit.Json

def isBlank (c : Char) : Bool := c = ' ' || c = '\t' || c = '\n' || c = '\r'

/-! ## Strings -/

def hexValue? (c : Char) : Option Nat :=
  if '0' ≤ c ∧ c ≤ '9' then some (c.toNat - 48)
  else if 'a' ≤ c ∧ c ≤ 'f' then some (c.toNat - 87)
  else if 'A' ≤ c ∧ c ≤ 'F' then some (c.toNat - 55)
  else none

def hexUnit? (a b c d : Char) : Option Nat := do
  return (((← hexValue? a) * 16 + (← hexValue? b)) * 16 + (← hexValue? c)) * 16 + (← hexValue? d)

/-- The character named by a backslash and one letter. -/
def shortEscape? : Char → Option Char
  | '"' => some '"'
  | '\\' => some '\\'
  | '/' => some '/'
  | 'b' => some (Char.ofNat 8)
  | 'f' => some (Char.ofNat 12)
  | 'n' => some '\n'
  | 'r' => some '\r'
  | 't' => some '\t'
  | _ => none

/-- What stands inside quotes: characters, and code units written as `\uXXXX`. -/
inductive Piece where
  | char (c : Char)
  | unit (code : Nat)
deriving DecidableEq, Repr

/-- The pieces up to the closing quotation mark, and the text behind it. -/
def pieces? : List Char → Option (List Piece × List Char)
  | [] => none
  | '"' :: rest => some ([], rest)
  | '\\' :: 'u' :: a :: b :: c :: d :: rest => do
    let code ← hexUnit? a b c d
    let (ps, rest) ← pieces? rest
    return (.unit code :: ps, rest)
  | '\\' :: e :: rest => do
    let c ← shortEscape? e
    let (ps, rest) ← pieces? rest
    return (.char c :: ps, rest)
  | c :: rest =>
    if c < ' ' then none
    else do
      let (ps, rest) ← pieces? rest
      return (.char c :: ps, rest)

def isHighSurrogate (code : Nat) : Bool := 0xD800 ≤ code && code < 0xDC00
def isLowSurrogate (code : Nat) : Bool := 0xDC00 ≤ code && code < 0xE000

/-- The characters that the pieces encode. -/
def joinPieces? : List Piece → Option (List Char)
  | [] => some []
  | .char c :: ps => (joinPieces? ps).map (c :: ·)
  | .unit high :: .unit low :: ps =>
    if isHighSurrogate high && isLowSurrogate low then
      (joinPieces? ps).map (Char.ofNat (0x10000 + (high - 0xD800) * 0x400 + (low - 0xDC00)) :: ·)
    else if isHighSurrogate high || isLowSurrogate high then none
    else (joinPieces? (.unit low :: ps)).map (Char.ofNat high :: ·)
  | .unit code :: ps =>
    if isHighSurrogate code || isLowSurrogate code then none
    else (joinPieces? ps).map (Char.ofNat code :: ·)

/-! ## Numbers -/

/-- One or more decimal digits. -/
def digits? (cs : List Char) : Option (List Char × List Char) :=
  match cs.takeWhile Char.isDigit with
  | [] => none
  | ds => some (ds, cs.dropWhile Char.isDigit)

/-- The digits in front of the point: a zero alone, or digits that start with another. -/
def integerPart? : List Char → Option (List Char × List Char)
  | '0' :: rest => some (['0'], rest)
  | cs => digits? cs

/-- The digits behind a point; none where no point stands. -/
def fraction? : List Char → Option (Option (List Char) × List Char)
  | '.' :: rest => (digits? rest).map fun (ds, rest) => (some ds, rest)
  | cs => some (none, cs)

def signedDigits? : List Char → Option (Int × List Char)
  | '+' :: rest => (digits? rest).map fun (ds, rest) => ((Digits.value ds : Int), rest)
  | '-' :: rest => (digits? rest).map fun (ds, rest) => (-(Digits.value ds : Int), rest)
  | cs => (digits? cs).map fun (ds, rest) => ((Digits.value ds : Int), rest)

/-- The number behind an `e`; none where no `e` stands. -/
def exponent? : List Char → Option (Option Int × List Char)
  | c :: rest =>
    if c = 'e' ∨ c = 'E' then (signedDigits? rest).map fun (e, rest) => (some e, rest)
    else some (none, c :: rest)
  | [] => some (none, [])

def unsignedNumeral? (negative : Bool) (cs : List Char) : Option (Numeral × List Char) := do
  let (whole, cs) ← integerPart? cs
  let (fraction, cs) ← fraction? cs
  let (exponent, cs) ← exponent? cs
  match fraction, exponent with
  | none, none =>
    let n : Int := Digits.value whole
    return (.whole (if negative then -n else n), cs)
  | _, _ =>
    let ds := fraction.getD []
    return (.decimal negative (Digits.value (whole ++ ds)) (exponent.getD 0 - ds.length), cs)

def numeral? : List Char → Option (Numeral × List Char)
  | '-' :: cs => unsignedNumeral? true cs
  | cs => unsignedNumeral? false cs

/-! ## Tokens -/

def words : List (List Char × Token) :=
  [("null".toList, .null), ("true".toList, .bool true), ("false".toList, .bool false)]

def word? (cs : List Char) : Option (Token × List Char) :=
  words.findSome? fun (w, t) => if w.isPrefixOf cs then some (t, cs.drop w.length) else none

/-- The token that a text starts with, and the text behind it. -/
def token? : List Char → Option (Token × List Char)
  | [] => none
  | c :: rest =>
    match c with
    | '[' => some (.openArray, rest)
    | ']' => some (.closeArray, rest)
    | '\x7b' => some (.openObject, rest)
    | '\x7d' => some (.closeObject, rest)
    | ',' => some (.comma, rest)
    | ':' => some (.colon, rest)
    | '"' => do
      let (ps, rest) ← pieces? rest
      return (.string (String.ofList (← joinPieces? ps)), rest)
    | c =>
      if c = '-' ∨ c.isDigit then (numeral? (c :: rest)).map fun (n, rest) => (.number n, rest)
      else word? (c :: rest)

/-! ## What is left of the text is shorter -/

theorem length_pieces? {cs rest : List Char} {ps : List Piece} (h : pieces? cs = some (ps, rest)) :
    rest.length < cs.length := by
  fun_induction pieces? cs generalizing ps rest with
  | case1 => cases h
  | case2 => cases h; simp
  | case3 a b c d rest' ih | case4 e rest' _ ih | case6 c rest' _ _ _ _ ih =>
    simp only [Option.bind_eq_bind, Option.bind_eq_some_iff] at h
    grind
  | case5 => cases h

theorem length_digits? {cs ds rest : List Char} (h : digits? cs = some (ds, rest)) :
    rest.length < cs.length := by
  have hl := congrArg List.length (List.takeWhile_append_dropWhile (p := Char.isDigit) (l := cs))
  rw [List.length_append] at hl
  rw [digits?] at h
  split at h
  · cases h
  · next hne =>
    cases h
    have := List.length_pos_iff.2 hne
    omega

theorem length_integerPart? {cs ds rest : List Char} (h : integerPart? cs = some (ds, rest)) :
    rest.length < cs.length := by
  rw [integerPart?.eq_def] at h
  split at h
  · cases h; simp
  · exact length_digits? h

theorem length_fraction? {cs rest : List Char} {ds : Option (List Char)}
    (h : fraction? cs = some (ds, rest)) : rest.length ≤ cs.length := by
  rw [fraction?.eq_def] at h
  split at h
  · simp only [Option.map_eq_some_iff] at h
    obtain ⟨⟨ds', rest'⟩, hd, h⟩ := h
    cases h
    have := length_digits? hd
    simp only [List.length_cons]; omega
  · cases h; exact Nat.le_refl _

theorem length_signedDigits? {cs rest : List Char} {e : Int}
    (h : signedDigits? cs = some (e, rest)) : rest.length < cs.length := by
  rw [signedDigits?.eq_def] at h
  split at h <;>
    (simp only [Option.map_eq_some_iff] at h
     obtain ⟨⟨ds', rest'⟩, hd, h⟩ := h
     cases h
     have := length_digits? hd
     simp only [List.length_cons]; omega)

theorem length_exponent? {cs rest : List Char} {e : Option Int}
    (h : exponent? cs = some (e, rest)) : rest.length ≤ cs.length := by
  rw [exponent?.eq_def] at h
  split at h
  · split at h
    · simp only [Option.map_eq_some_iff] at h
      obtain ⟨⟨ds', rest'⟩, hd, h⟩ := h
      cases h
      have := length_signedDigits? hd
      simp only [List.length_cons]; omega
    · cases h; exact Nat.le_refl _
  · cases h; exact Nat.le_refl _

theorem length_unsignedNumeral? {negative : Bool} {cs rest : List Char} {n : Numeral}
    (h : unsignedNumeral? negative cs = some (n, rest)) : rest.length < cs.length := by
  simp only [unsignedNumeral?, Option.bind_eq_bind, Option.bind_eq_some_iff] at h
  obtain ⟨⟨_, cs₁⟩, h₁, ⟨_, cs₂⟩, h₂, ⟨_, cs₃⟩, h₃, h⟩ := h
  have hrest : rest = cs₃ := by
    dsimp only at h
    split at h <;> (cases h; rfl)
  have hlt := length_integerPart? h₁
  have hle := length_fraction? h₂
  have hle' := length_exponent? h₃
  dsimp only at hle hle'
  subst hrest
  omega

theorem length_numeral? {cs rest : List Char} {n : Numeral} (h : numeral? cs = some (n, rest)) :
    rest.length < cs.length := by
  rw [numeral?.eq_def] at h
  split at h
  · have := length_unsignedNumeral? h
    simp only [List.length_cons]; omega
  · exact length_unsignedNumeral? h

theorem length_word? {cs rest : List Char} {t : Token} (h : word? cs = some (t, rest)) :
    rest.length < cs.length := by
  rw [word?, List.findSome?_eq_some_iff] at h
  obtain ⟨_, ⟨w, t⟩, _, hw, h, _⟩ := h
  dsimp only at h
  split at h
  · next hp =>
    cases h
    have hpos : 0 < w.length := by
      have : (w, t) ∈ words := hw ▸ by simp
      simp only [words, List.mem_cons, Prod.mk.injEq, List.not_mem_nil, or_false] at this
      rcases this with ⟨rfl, _⟩ | ⟨rfl, _⟩ | ⟨rfl, _⟩ <;> decide
    have := (List.isPrefixOf_iff_prefix.1 hp).length_le
    rw [List.length_drop]; omega
  · cases h

theorem length_token? {cs rest : List Char} {t : Token} (h : token? cs = some (t, rest)) :
    rest.length < cs.length := by
  rw [token?.eq_def] at h
  split at h
  · cases h
  · next c cs =>
    split at h
    case h_7 =>
      simp only [Option.bind_eq_bind, Option.bind_eq_some_iff] at h
      obtain ⟨⟨_, _⟩, hp, _, _, h⟩ := h
      cases h
      have := length_pieces? hp
      simp only [List.length_cons]; omega
    case h_8 =>
      split at h
      · simp only [Option.map_eq_some_iff] at h
        obtain ⟨⟨_, _⟩, hn, h⟩ := h
        cases h
        exact length_numeral? hn
      · exact length_word? h
    all_goals cases h; simp

/-! ## The tokens of a text -/

def tokens? : List Char → Option (List Token)
  | [] => some []
  | c :: cs =>
    if isBlank c then tokens? cs
    else
      match _h : token? (c :: cs) with
      | none => none
      | some (t, rest) => (tokens? rest).map (t :: ·)
termination_by cs => cs.length
decreasing_by
  · simp
  · exact length_token? _h

end BlockEdit.Json
