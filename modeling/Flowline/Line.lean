import Flowline.Value.Codec

/-!
Lines, the instructions of a flat program. A line has an address made from the source line it comes from,
a method, operands, and links to other lines: its parent, the first line of its body, the branch to try
instead, and the line that follows.
-/

namespace Flowline

/-- The address of a line. -/
structure Address where
  text : String
deriving DecidableEq, Repr

namespace Address

/-- The address of the line number `ordinal`, from zero, of those that come from one source line. -/
def ofSource (line : UInt32) (ordinal : Nat) : Address :=
  if ordinal = 0 then ⟨toString line.toNat⟩ else ⟨toString line.toNat ++ "." ++ toString ordinal⟩

/-- An address as JSON. -/
def toJson (a : Address) : Json :=
  .string a.text

end Address

/-- What a line does. -/
inductive Method where
  | expression
  | execute
  | call
  | set_
  | if_
  | elif
  | else_
  | for_
  | while_
  | try_
  | catch_
  | finally_
  | function
  | when
  | mutation
  | throw
  | break_
  | return_
deriving DecidableEq, Repr

namespace Method

/-- All methods, in their listed order. -/
def all : List Method :=
  [.expression, .execute, .call, .set_, .if_, .elif, .else_, .for_, .while_, .try_, .catch_, .finally_, .function,
    .when, .mutation, .throw, .break_, .return_]

/-- The name of a method. -/
def name : Method → String
  | .expression => "expression"
  | .execute => "execute"
  | .call => "call"
  | .set_ => "set"
  | .if_ => "if"
  | .elif => "elif"
  | .else_ => "else"
  | .for_ => "for"
  | .while_ => "while"
  | .try_ => "try"
  | .catch_ => "catch"
  | .finally_ => "finally"
  | .function => "function"
  | .when => "when"
  | .mutation => "mutation"
  | .throw => "throw"
  | .break_ => "break"
  | .return_ => "return"

/-- The method of a name. -/
def ofName? (name : String) : Option Method :=
  all.find? (·.name == name)

/-- Whether a later branch of the same chain may be the way out of the line. -/
def isBranch : Method → Bool
  | .if_ | .elif | .try_ | .catch_ => true
  | _ => false

/-- Whether the line invokes a service, or a handle of one. -/
def invokesService : Method → Bool
  | .execute | .call | .when => true
  | _ => false

end Method

/-- A line of a flat program. -/
structure Line where
  address : Address
  method : Method
  sourceLine : UInt32
  name : Option (List Segment) := none
  service : Option String := none
  command : Option String := none
  function : Option String := none
  args : Option (List Value) := none
  output : Option (List String) := none
  enter : Option Address := none
  exit : Option Address := none
  parent : Option Address := none
  next : Option Address := none

/-- A line as JSON, without its address and without the fields that it lacks. -/
def Line.toJson (l : Line) : Json :=
  .object
    ([("method", .string l.method.name), ("ln", .string (toString l.sourceLine.toNat))] ++
      Json.optional "name" (fun segments => .array (Segment.listToJson segments)) l.name ++
      Json.optional "service" .string l.service ++
      Json.optional "command" .string l.command ++
      Json.optional "function" .string l.function ++
      Json.optional "args" (fun values => .array (Value.listToJson values)) l.args ++
      Json.optional "output" Json.texts l.output ++
      Json.optional "enter" Address.toJson l.enter ++
      Json.optional "exit" Address.toJson l.exit ++
      Json.optional "parent" Address.toJson l.parent ++
      Json.optional "next" Address.toJson l.next)

end Flowline
