/-
Writing a value as text: its tokens one after the other, without blanks.
-/
import BlockEdit.Json.Token

namespace BlockEdit.Json

mutual
def tokens : Json → List Token
  | null => [.null]
  | bool b => [.bool b]
  | number n => [.number n]
  | string s => [.string s]
  | array [] => [.openArray, .closeArray]
  | array (item :: items) => .openArray :: (item.tokens ++ moreItemTokens items)
  | object [] => [.openObject, .closeObject]
  | object ((name, value) :: fields) =>
    .openObject :: .string name :: .colon :: (value.tokens ++ moreFieldTokens fields)

/-- The items after the first of an array, each behind its comma, and the end of the array. -/
def moreItemTokens : List Json → List Token
  | [] => [.closeArray]
  | item :: items => .comma :: (item.tokens ++ moreItemTokens items)

/-- The fields after the first of an object, and the end of the object. -/
def moreFieldTokens : List (String × Json) → List Token
  | [] => [.closeObject]
  | (name, value) :: fields =>
    .comma :: .string name :: .colon :: (value.tokens ++ moreFieldTokens fields)
end

def print (v : Json) : String := String.ofList (v.tokens.flatMap Token.chars)

end BlockEdit.Json
