import Flowline.Tree.Malformed

/-!
Reports of problems. A diagnostic has a stable code with a one-line hint, named details in the order in
which they were added, and the position it is about, where there is one.
-/

namespace Flowline

/-- The kinds of problem. -/
inductive Code where
  | argumentsNoService
  | argumentsNoMutation
  | functionAlreadyDeclared
  | functionCallInvalidPath
  | functionCallNoFunction
  | functionCallNoInlineExpression
  | returnOutside
  | breakOutside
  | serviceName
  | variablesBackslash
  | variablesDash
  | unknownStatement
  | malformedTree
deriving DecidableEq, Repr

namespace Code

/-- All codes, in their listed order. -/
def all : List Code :=
  [.argumentsNoService, .argumentsNoMutation, .functionAlreadyDeclared, .functionCallInvalidPath,
    .functionCallNoFunction, .functionCallNoInlineExpression, .returnOutside, .breakOutside, .serviceName,
    .variablesBackslash, .variablesDash, .unknownStatement, .malformedTree]

/-- The stable name of a code. -/
def name : Code → String
  | .argumentsNoService => "arguments_noservice"
  | .argumentsNoMutation => "arguments_nomutation"
  | .functionAlreadyDeclared => "function_already_declared"
  | .functionCallInvalidPath => "function_call_invalid_path"
  | .functionCallNoFunction => "function_call_no_function"
  | .functionCallNoInlineExpression => "function_call_no_inline_expression"
  | .returnOutside => "return_outside"
  | .breakOutside => "break_outside"
  | .serviceName => "service_name"
  | .variablesBackslash => "variables_backslash"
  | .variablesDash => "variables_dash"
  | .unknownStatement => "unknown_statement"
  | .malformedTree => "malformed_tree"

/-- What the author of the script is told. -/
def hint : Code → String
  | .argumentsNoService => "You have defined an argument, but not a service"
  | .argumentsNoMutation => "You have defined a chained mutation, but not a mutation"
  | .functionAlreadyDeclared => "This function has already been declared"
  | .functionCallInvalidPath => "A function call can only be qualified by one module name"
  | .functionCallNoFunction => "This function has not been declared or imported"
  | .functionCallNoInlineExpression => "A function can't be called on an inline expression"
  | .returnOutside => "`return` is allowed only inside functions"
  | .breakOutside => "`break` is allowed only inside loops"
  | .serviceName => "A service name can't contain `.`"
  | .variablesBackslash => "A variable name can't contain `/`"
  | .variablesDash => "A variable name can't contain `-`"
  | .unknownStatement => "Internal error: statement has no lowering rule"
  | .malformedTree => "Internal error: unexpected syntax tree shape"

/-- Whether the problem lies with the tree rather than with the script. -/
def isInternal : Code → Bool
  | .unknownStatement | .malformedTree => true
  | _ => false

/-- The code of a name. -/
def ofName? (name : String) : Option Code :=
  all.find? (·.name == name)

end Code

/-- A report of one problem. -/
structure Diagnostic where
  code : Code
  position : Option Position := none
  context : List (String × String) := []
deriving DecidableEq, Repr

namespace Diagnostic

/-- Adds a named detail. -/
def note (d : Diagnostic) (key value : String) : Diagnostic :=
  { d with context := d.context ++ [(key, value)] }

/-- Gives a position to a report that has none. -/
def locate (d : Diagnostic) (position : Option Position) : Diagnostic :=
  { d with position := d.position <|> position }

/-- The first detail with a name. -/
def get? (d : Diagnostic) (key : String) : Option String :=
  d.context.lookup key

/-- Whether the problem lies with the tree rather than with the script. -/
def isInternal (d : Diagnostic) : Bool :=
  d.code.isInternal

/-- The details in words. -/
def describeContext (context : List (String × String)) : String :=
  if context.isEmpty then ""
  else " (" ++ ", ".intercalate (context.map fun entry => entry.1 ++ "=" ++ entry.2) ++ ")"

/-- The position in words. -/
def describePosition : Option Position → String
  | none => ""
  | some p => " at " ++ p.describe

/-- The report in words. -/
def message (d : Diagnostic) : String :=
  d.code.name ++ ": " ++ d.code.hint ++ describeContext d.context ++ describePosition d.position

end Diagnostic

/-- The report of a malformed tree. -/
def Malformed.diagnostic (m : Malformed) : Diagnostic :=
  { code := .malformedTree, position := m.position?, context := [("detail", m.detail)] }

/-- Reports a problem at the tree unless the condition holds. -/
def Tree.ensure (t : Tree) (condition : Bool) (code : Code) (context : List (String × String)) :
    Except Diagnostic Unit :=
  if condition then .ok () else .error { code, position := t.position?, context }

/-- A malformed tree is a problem to report. -/
instance : MonadLift (Except Malformed) (Except Diagnostic) where
  monadLift := Except.mapError Malformed.diagnostic

end Flowline
