import Flowline.Number.Literal

/-!
Values, the operands of lines. A value is a literal, a path to a variable, an operator expression, an
inline service call, an argument, or a mutation. Texts and expressions are templates whose holes are
filled by the values beside them.
-/

namespace Flowline

mutual

/-- A value. -/
inductive Value where
  /-- A text; `values` fill its holes, and there are `none` if it has no placeholder. -/
  | string (text : String) (values : Option (List Value))
  | number (number : Number)
  | boolean (value : Bool)
  | file (text : String)
  | list (items : List Value)
  | dict (items : List (Value × Value))
  | path (segments : List Segment)
  | type (name : String)
  | expression (template : String) (values : List Value)
  | call (service : String) (command : Option String) (output : Option (List String)) (arguments : List Argument)
  | argument (argument : Argument)
  | mutation (name : String) (arguments : List Argument)

/-- A step of a path: a name, or a subscript to be computed. -/
inductive Segment where
  | name (text : String)
  | computed (value : Value)

/-- An argument, named or not. -/
structure Argument where
  name : Option String
  value : Value

end

namespace Value

/-- The path with the given names. -/
def ofNames (names : List String) : Value :=
  .path (names.map .name)

/-- The application of a binary operator. -/
def binary (operator : String) (left right : Value) : Value :=
  .expression ("\x7b\x7d " ++ operator ++ " \x7b\x7d") [left, right]

/-- The kind of a value that is written as a tagged record; numbers and truth values are written bare. -/
def kind? : Value → Option String
  | .number _ | .boolean _ => none
  | .string .. => some "string"
  | .file _ => some "file"
  | .list _ => some "list"
  | .dict _ => some "dict"
  | .path _ => some "path"
  | .type _ => some "type"
  | .expression .. => some "expression"
  | .call .. => some "method"
  | .argument _ => some "argument"
  | .mutation .. => some "mutation"

end Value

end Flowline
