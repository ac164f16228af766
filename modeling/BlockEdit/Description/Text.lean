/-
Descriptions as text. The writing and the reading are done by a library that
is handed in. What it has to say of a text that it cannot read is passed on.
-/
import BlockEdit.Description

namespace BlockEdit

/-- A library that writes descriptions as text and reads them back, with errors of its own. -/
structure TextLibrary (ε : Type) where
  write : Description → String
  read : String → Except ε Description
  /-- What the library says of an error. -/
  display : ε → String

/-- A text that is not read as a description. -/
structure UnreadableText where
  reason : String
deriving DecidableEq, Repr

def UnreadableText.message (e : UnreadableText) : String := "JSON parse error: " ++ e.reason

namespace Description

variable {ε : Type} (lib : TextLibrary ε)

def writtenBy (d : Description) : String := lib.write d

def readBy (text : String) : Except UnreadableText Description :=
  (lib.read text).mapError fun e => ⟨lib.display e⟩

end Description
end BlockEdit
