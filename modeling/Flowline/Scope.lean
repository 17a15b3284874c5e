import Flowline.Line

/-!
Lexical scopes. Each open body has a frame of names, and the top level has one that never closes; a name
means what the innermost frame that binds it says.
-/

namespace Flowline

/-- What a name stands for: a value that was assigned, iterated, caught or passed, or the handle of a
    service. -/
inductive Binding where
  | value
  | handle
deriving DecidableEq, Repr

/-- The names bound in one body. `owner` is the header of the body, and the top level has none. -/
structure Frame where
  owner : Option Address
  bindings : List (String × Binding) := []
deriving DecidableEq, Repr

/-- What the frame says of a name: its latest binding. -/
def Frame.lookup? (f : Frame) (name : String) : Option Binding :=
  f.bindings.lookup name

/-- The open frames: the innermost one, and those around it from the inside out. -/
structure Scopes where
  innermost : Frame := ⟨none, []⟩
  outer : List Frame := []
deriving DecidableEq, Repr

namespace Scopes

/-- All open frames, from the inside out. -/
def frames (s : Scopes) : List Frame :=
  s.innermost :: s.outer

/-- The number of open frames. -/
def depth (s : Scopes) : Nat :=
  s.frames.length

/-- What a name stands for. -/
def lookup? (s : Scopes) (name : String) : Option Binding :=
  s.frames.findSome? (·.lookup? name)

/-- Binds a name in the innermost frame. -/
def define (s : Scopes) (name : String) (binding : Binding) : Scopes :=
  { s with innermost := { s.innermost with bindings := (name, binding) :: s.innermost.bindings } }

/-- Binds names in the innermost frame, one after the other. -/
def defineAll (s : Scopes) (names : List String) (binding : Binding) : Scopes :=
  names.foldl (·.define · binding) s

/-- Opens a frame for the body of a header. -/
def push (s : Scopes) (owner : Address) : Scopes :=
  ⟨⟨some owner, []⟩, s.frames⟩

/-- Closes the innermost frame if it belongs to the body of this header. -/
def pop (s : Scopes) (owner : Address) : Scopes :=
  match s.outer with
  | [] => s
  | frame :: outer => if s.innermost.owner = some owner then ⟨frame, outer⟩ else s

end Scopes

end Flowline
