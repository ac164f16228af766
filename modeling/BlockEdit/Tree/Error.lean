/-
Why an edit of a tree, or a look into it, fails.
-/
import BlockEdit.Location

namespace BlockEdit

inductive EditError where
  | noSuchLocation (location : Location)
  /-- A root was to be inserted into a tree that has one. -/
  | hasRoot
  | noSuchProperty (location : Location) (key : String)
  /-- A node was to be moved into its own subtree. -/
  | moveIntoItself (source target : Location)
deriving DecidableEq, Repr

def EditError.message : EditError → String
  | noSuchLocation location => "location " ++ location.display ++ " does not resolve"
  | hasRoot => "tree already has a root node"
  | noSuchProperty location key =>
    "node at " ++ location.display ++ " has no property '" ++ key ++ "'"
  | moveIntoItself source target =>
    "cannot move " ++ source.display ++ " into its own subtree at " ++ target.display

end BlockEdit
