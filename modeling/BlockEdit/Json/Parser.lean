/-
Reading a value from its tokens: one pass from left to right, with the open
arrays and objects on a stack of frames.

A text is one value and nothing else. No comma stands in front of a closing
bracket, and the name of a field is a string. How deep values nest is not
limited.
-/
import BlockEdit.Json.Lexer

namespace BlockEdit.Json

/-- An open array or object, with what it holds so far, the last first. -/
inductive Frame where
  | items (before : List Json)
  | fields (before : List (String × Json)) (name : String)

/-- What may come next, inside the given frames, innermost first. -/
inductive State where
  | value (frames : List Frame)
  /-- Behind an opening bracket: a value or the end of the array. -/
  | firstItem (frames : List Frame)
  /-- Behind an opening brace: a name or the end of the object. -/
  | firstName (frames : List Frame)
  | name (before : List (String × Json)) (frames : List Frame)
  | colon (before : List (String × Json)) (name : String) (frames : List Frame)
  /-- Behind a finished value. -/
  | after (v : Json) (frames : List Frame)

namespace State

def beginValue (frames : List Frame) : Token → Option State
  | .null => some (.after .null frames)
  | .bool b => some (.after (.bool b) frames)
  | .number n => some (.after (.number n) frames)
  | .string s => some (.after (.string s) frames)
  | .openArray => some (.firstItem frames)
  | .openObject => some (.firstName frames)
  | _ => none

def step : State → Token → Option State
  | value frames, t => beginValue frames t
  | firstItem frames, .closeArray => some (.after (.array []) frames)
  | firstItem frames, t => beginValue (.items [] :: frames) t
  | firstName frames, .closeObject => some (.after (.object []) frames)
  | firstName frames, .string n => some (.colon [] n frames)
  | name before frames, .string n => some (.colon before n frames)
  | colon before n frames, .colon => some (.value (.fields before n :: frames))
  | after v (.items before :: frames), .comma => some (.value (.items (v :: before) :: frames))
  | after v (.items before :: frames), .closeArray =>
    some (.after (.array (v :: before).reverse) frames)
  | after v (.fields before n :: frames), .comma => some (.name ((n, v) :: before) frames)
  | after v (.fields before n :: frames), .closeObject =>
    some (.after (.object ((n, v) :: before).reverse) frames)
  | _, _ => none

/-- The value read, when no frame is open any more. -/
def result? : State → Option Json
  | after v [] => some v
  | _ => none

end State

def ofTokens? (ts : List Token) : Option Json := do
  let s ← ts.foldlM State.step (.value [])
  s.result?

def parse? (text : String) : Option Json := do
  let ts ← tokens? text.toList
  ofTokens? ts

end BlockEdit.Json
