import Flowline.Text.Quote
import Flowline.Tree.Basic

/-! The textual form of a path: its names joined by dots, computed subscripts in brackets. -/

namespace Flowline.Tree

/-- Adds a name to a path; the dot comes only between two names. -/
def addName (text name : String) : String :=
  if text = "" then name else text ++ "." ++ name

/-- The text between the quotes of a string node, or nothing. -/
def quotedText (t : Tree) : String :=
  match t.tokenAt? 0 with
  | some token => Text.unquote token.value
  | none => ""

mutual

/-- The path in dotted form, as in `client.listen`. -/
def dottedText : Tree → String
  | ⟨_, children⟩ => addDotted "" children

/-- Adds the names and subscripts that these children of a path stand for. -/
def addDotted (text : String) : List Child → String
  | [] => text
  | .token name :: rest => addDotted (addName text name.value) rest
  | .tree ⟨_, []⟩ :: rest => addDotted text rest
  | .tree ⟨_, .token name :: _⟩ :: rest => addDotted (addName text name.value) rest
  | .tree ⟨_, .tree inner :: _⟩ :: rest =>
    if inner.tag = "string" then addDotted (addName text inner.quotedText) rest
    else addDotted (text ++ "[" ++ inner.dottedText ++ "]") rest

end

end Flowline.Tree
