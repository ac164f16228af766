/-
The tokens of a JSON text and the characters each is written with.

Inside quotes a quotation mark and a backslash take a backslash in front,
and the characters below U+0020 are written by their code, as in `\u000a`;
every other character stands for itself.
-/
import BlockEdit.Json

namespace BlockEdit.Json

inductive Token where
  | openArray
  | closeArray
  | openObject
  | closeObject
  | comma
  | colon
  | null
  | bool (value : Bool)
  | number (value : Numeral)
  | string (value : String)
deriving DecidableEq, Repr

/-- The hexadecimal digit of a number below 16, in small letters. -/
def hexDigit (n : Nat) : Char := if n < 10 then Char.ofNat (48 + n) else Char.ofNat (87 + n)

/-- One character as it is written inside quotes. -/
def quotedChar (c : Char) : List Char :=
  if c = '"' then ['\\', '"']
  else if c = '\\' then ['\\', '\\']
  else if c < ' ' then ['\\', 'u', '0', '0', hexDigit (c.toNat / 16), hexDigit (c.toNat % 16)]
  else [c]

def quoted (cs : List Char) : List Char := '"' :: (cs.flatMap quotedChar ++ ['"'])

def numeralChars : Numeral → List Char
  | .whole n => (toString n).toList
  | .decimal negative mantissa exponent =>
    (if negative then ['-'] else []) ++ (toString mantissa).toList ++
      'e' :: (toString exponent).toList

namespace Token

def chars : Token → List Char
  | openArray => ['[']
  | closeArray => [']']
  | openObject => ['\x7b']
  | closeObject => ['\x7d']
  | comma => [',']
  | colon => [':']
  | null => "null".toList
  | bool true => "true".toList
  | bool false => "false".toList
  | number n => numeralChars n
  | string s => quoted s.toList

end Token
end BlockEdit.Json
