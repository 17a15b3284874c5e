import Flowline.Tree.Basic

/-! The ways in which a tree departs from the shape that its reader was promised. -/

namespace Flowline

/-- A departure from the promised shape. A missing part has no position; what stands in the wrong place
    has its own. -/
inductive Malformed where
  | shape (error : Missing)
  | unexpectedNode (tag : String) (position : Option Position)
  | unexpectedToken (kind : String) (position : Position)
  | invalidNumber (text : String) (position : Position)
deriving DecidableEq, Repr

namespace Malformed

/-- A tree in a place where it cannot stand. -/
def unexpected (t : Tree) : Malformed :=
  .unexpectedNode t.tag t.position?

/-- The departure in words. -/
def detail : Malformed → String
  | .shape error => error.message
  | .unexpectedNode tag _ => s!"unexpected `{tag}`"
  | .unexpectedToken kind _ => s!"unexpected token `{kind}`"
  | .invalidNumber text _ => s!"invalid number `{text}`"

/-- Where it stands. -/
def position? : Malformed → Option Position
  | .shape _ => none
  | .unexpectedNode _ position => position
  | .unexpectedToken _ position => some position
  | .invalidNumber _ position => some position

end Malformed

/-- What a tree lacks is a departure from its promised shape. -/
instance : MonadLift (Except Missing) (Except Malformed) where
  monadLift := Except.mapError .shape

end Flowline
