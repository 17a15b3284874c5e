import Flowline.Text.Quote
import Flowline.Text.Template
import Flowline.Tree.Malformed
import Flowline.Value.Basic

/-!
Reading values off trees. Each reader takes the node that it is about and looks only at its children,
whatever its tag; `Tree.readValue` chooses the reader by the tag. A tree of an unpromised shape is refused
at the first departure in reading order.

The mutual readers descend along `Child`, `Tree` and `List Child`: a child is read by its tag, a tree by
its shape, and a row of children from left to right.
-/

namespace Flowline

/-- The kinds of node that stand for a value. -/
inductive ValueKind where
  | literal
  | entity
  | path
  | expression
  | string
  | number
  | boolean
  | list
  | dict
  | type
  | service
deriving DecidableEq, Repr

/-- The kind that a tag announces. -/
def ValueKind.ofTag? : String → Option ValueKind
  | "values" => some .literal
  | "entity" => some .entity
  | "path" => some .path
  | "expression" => some .expression
  | "string" => some .string
  | "number" => some .number
  | "boolean" => some .boolean
  | "list" => some .list
  | "objects" => some .dict
  | "types" => some .type
  | "service" => some .service
  | _ => none

/-- A quoted file name. -/
def Token.fileValue (t : Token) : Value :=
  .file (Text.unquote t.value)

namespace Tree

/-! ### Literals -/

/-- The path that a placeholder names. -/
def placeholderPath (name : List Char) : Value :=
  .ofNames ((Text.pieces '.' name).map fun piece => String.ofList (Text.trim piece))

/-- A text whose placeholders are emptied into holes, with a path for each that is not blank. -/
def readString (t : Tree) : Except Malformed Value := do
  let word ← t.tokenAt 0
  let template := Text.Template.parse (Text.unquote word.value).toList
  let values := template.names.map placeholderPath
  return .string (String.ofList template.emptied) (if values.isEmpty then none else some values)

/-- The number that a token spells. One marked as a float is read as such even if it is whole. -/
def numberOf? (token : Token) : Option Number :=
  if token.kind = "FLOAT" then (Number.readFloat? token.value.toList).map .float
  else Number.read? token.value.toList

/-- A number. -/
def readNumber (t : Tree) : Except Malformed Value := do
  let token ← t.tokenAt 0
  match numberOf? token with
  | some number => return .number number
  | none => throw (.invalidNumber token.value token.position)

/-- A truth value. -/
def readBoolean (t : Tree) : Except Malformed Value := do
  let token ← t.tokenAt 0
  return .boolean (token.kind == "TRUE" || token.value == "true")

/-- The name of a type. -/
def readType (t : Tree) : Except Malformed Value := do
  let name ← t.tokenAt 0
  return .type name.value

/-! ### Operators -/

/-- The operators that order or equate their operands. -/
def isComparison (operator : String) : Bool :=
  ["==", "!=", "<", "<=", ">", ">="].contains operator

/-- The operators of an expression, bare or wrapped. -/
def operatorsOf : List Child → Except Malformed (List String)
  | [] => .ok []
  | .token symbol :: rest => do return symbol.value :: (← operatorsOf rest)
  | .tree t :: rest =>
    if t.tag = "operator" then do
      let symbol ← t.tokenAt 0
      return symbol.value :: (← operatorsOf rest)
    else operatorsOf rest

/-- The operands of an expression. -/
def operands (t : Tree) : List Tree :=
  t.subtrees.filter (·.tag != "operator")

/-- The operators of an expression, of which there must be one less than operands. -/
def readOperators (t : Tree) : Except Malformed (List String) := do
  let operators ← operatorsOf t.children
  if t.operands.length = operators.length + 1 then return operators else throw (.unexpected t)

/-- Each operator applied to the operands beside it. -/
def adjacent : Value → List (String × Value) → List Value
  | _, [] => []
  | left, (operator, right) :: rest => .binary operator left right :: adjacent right rest

/-- Operators applied to their operands: a chain of comparisons compares each pair of neighbours, and any
    other row of operators is applied from the left. -/
def applyOperators (operators : List String) : List Value → List Value
  | [] => []
  | first :: rest =>
    let steps := operators.zip rest
    if 1 < operators.length && operators.all isComparison then adjacent first steps
    else [steps.foldl (fun left step => .binary step.1 left step.2) first]

/-- The values of an expression joined into one. -/
def conjunction (t : Tree) : List Value → Except Malformed Value
  | [] => .error (.unexpected t)
  | first :: rest => .ok (rest.foldl (.binary "and") first)

/-! ### Calls -/

/-- The command word of a service call. -/
def readCommand (t : Tree) : Except Missing (Option String) :=
  match (t.child? "service_fragment").bind (·.child? "command") with
  | none => .ok none
  | some command => do
    let word ← command.tokenAt 0
    return some word.value

/-- The service and the command of an inline call. -/
def readCallee (t : Tree) : Except Malformed (String × Option String) := do
  let path ← t.child "path"
  let service ← path.tokenAt 0
  return (service.value, ← t.readCommand)

/-- The name of an argument. -/
def argumentName? (t : Tree) : Option String :=
  ((t.tokenAt? 0).filter (·.kind == "NAME")).map (·.value)

/-! ### Values -/

mutual

/-- The value that a child stands for. -/
def readChild : Child → Except Malformed Value
  | .token token => .error (.unexpectedToken token.kind token.position)
  | .tree t =>
    match ValueKind.ofTag? t.tag with
    | none => .error (.unexpected t)
    | some .literal => t.readLiteral
    | some .entity => t.readEntity
    | some .path => t.readPath
    | some .expression => do t.conjunction (← t.readConjuncts)
    | some .string => t.readString
    | some .number => t.readNumber
    | some .boolean => t.readBoolean
    | some .list => t.readList
    | some .dict => t.readDict
    | some .type => t.readType
    | some .service => t.readCall

/-- A value in literal position: a file name, a path, an inline call, or whatever the first child stands
    for. -/
def readLiteral : Tree → Except Malformed Value
  | ⟨tag, []⟩ => .error (.unexpected ⟨tag, []⟩)
  | ⟨_, .token token :: rest⟩ =>
    if token.kind = "FILEPATH" then .ok token.fileValue
    else if token.kind = "NAME" then do return .path (.name token.value :: (← segmentsOf rest))
    else .error (.unexpectedToken token.kind token.position)
  | ⟨tag, .tree item :: rest⟩ =>
    if item.tag = "path" then
      if (child? ⟨tag, .tree item :: rest⟩ "service_fragment").isSome then do
        let callee ← readCallee ⟨tag, .tree item :: rest⟩
        return .call callee.1 callee.2 none (← fragmentArguments rest)
      else item.readPath
    else readChild (.tree item)

/-- The subject of a loop, a mutation or a throw. -/
def readEntity : Tree → Except Malformed Value
  | ⟨_, .tree item :: _⟩ => readChild (.tree item)
  | t => .error (.unexpected t)

/-- A list. -/
def readList : Tree → Except Malformed Value
  | ⟨_, children⟩ => do return .list (← itemsOf children)

/-- The items of a list. -/
def itemsOf : List Child → Except Malformed (List Value)
  | [] => .ok []
  | .token _ :: rest => itemsOf rest
  | .tree t :: rest => do
    let item ← readChild (.tree t)
    return item :: (← itemsOf rest)

/-- A dictionary; repeated keys are kept. -/
def readDict : Tree → Except Malformed Value
  | ⟨_, children⟩ => do return .dict (← entriesOf children)

/-- The entries of a dictionary. -/
def entriesOf : List Child → Except Malformed (List (Value × Value))
  | [] => .ok []
  | .token _ :: rest => entriesOf rest
  | .tree t :: rest =>
    if t.tag = "key_value" then do
      let entry ← t.readEntry
      return entry :: (← entriesOf rest)
    else entriesOf rest

/-- A key, which is a string or a path, and its value. -/
def readEntry : Tree → Except Malformed (Value × Value)
  | ⟨tag, .tree key :: rest⟩ =>
    if key.tag = "string" || key.tag = "path" then do
      let name ← readChild (.tree key)
      match rest with
      | .tree value :: _ => return (name, ← readChild (.tree value))
      | _ => throw (.unexpected ⟨tag, .tree key :: rest⟩)
    else .error (.unexpected key)
  | t => .error (.unexpected t)

/-- A path. -/
def readPath : Tree → Except Malformed Value
  | ⟨_, children⟩ => do return .path (← segmentsOf children)

/-- The segments of a path: a name for each token, and one segment for each fragment. -/
def segmentsOf : List Child → Except Malformed (List Segment)
  | [] => .ok []
  | .token name :: rest => do return .name name.value :: (← segmentsOf rest)
  | .tree fragment :: rest => do
    let segment ← fragment.readSegment
    return segment :: (← segmentsOf rest)

/-- The segment that a fragment of a path stands for. -/
def readSegment : Tree → Except Malformed Segment
  | ⟨tag, []⟩ => .error (.unexpected ⟨tag, []⟩)
  | ⟨_, .token name :: _⟩ => .ok (.name name.value)
  | ⟨_, .tree inner :: _⟩ => inner.readSubscript

/-- A subscript: a quoted one is a name; a path or an inline expression is computed. -/
def readSubscript : Tree → Except Malformed Segment
  | ⟨tag, children⟩ =>
    if tag = "string" then do
      let word ← tokenAt ⟨tag, children⟩ 0
      return .name (Text.unquote word.value)
    else if tag = "path" then do return .computed (.path (← segmentsOf children))
    else if tag = "inline_expression" then
      match children with
      | .tree operand :: _ => do return .computed (← readChild (.tree operand))
      | _ => .error (.unexpected ⟨tag, children⟩)
    else .error (.unexpected ⟨tag, children⟩)

/-- An expression as the values that must all hold: one for each comparison of a chain, and else a single
    one. -/
def readConjuncts : Tree → Except Malformed (List Value)
  | ⟨tag, children⟩ => do
    match ← readOperators ⟨tag, children⟩ with
    | [] => loneConjuncts children
    | operators => return applyOperators operators (← operandsOf children)

/-- The conjuncts of an operand that stands alone. -/
def loneConjuncts : List Child → Except Malformed (List Value)
  | [] => .ok []
  | .token _ :: rest => loneConjuncts rest
  | .tree t :: _ =>
    if t.tag = "expression" then t.readConjuncts
    else do return [← readChild (.tree t)]

/-- The values of the operands. -/
def operandsOf : List Child → Except Malformed (List Value)
  | [] => .ok []
  | .token _ :: rest => operandsOf rest
  | .tree t :: rest =>
    if t.tag = "operator" then operandsOf rest
    else do
      let operand ← readChild (.tree t)
      return operand :: (← operandsOf rest)

/-- An inline service call. -/
def readCall : Tree → Except Malformed Value
  | ⟨tag, children⟩ => do
    let callee ← readCallee ⟨tag, children⟩
    return .call callee.1 callee.2 none (← fragmentArguments children)

/-- The arguments in the first service fragment among these children. -/
def fragmentArguments : List Child → Except Malformed (List Argument)
  | [] => .ok []
  | .token _ :: rest => fragmentArguments rest
  | .tree t :: rest => if t.tag = "service_fragment" then t.readChildArguments else fragmentArguments rest

/-- The arguments among the children of a node. -/
def readChildArguments : Tree → Except Malformed (List Argument)
  | ⟨_, children⟩ => argumentsOf children

/-- The arguments among these children. -/
def argumentsOf : List Child → Except Malformed (List Argument)
  | [] => .ok []
  | .token _ :: rest => argumentsOf rest
  | .tree t :: rest =>
    if t.tag = "arguments" then do
      let argument ← t.readArgument
      return argument :: (← argumentsOf rest)
    else argumentsOf rest

/-- An argument: an optional name, and the last subtree as its value. -/
def readArgument : Tree → Except Malformed Argument
  | ⟨tag, children⟩ =>
    match lastValue? children with
    | none => .error (.unexpected ⟨tag, children⟩)
    | some value => do return ⟨argumentName? ⟨tag, children⟩, ← value⟩

/-- What the last subtree reads as. -/
def lastValue? : List Child → Option (Except Malformed Value)
  | [] => none
  | child :: rest =>
    match lastValue? rest with
    | some value => some value
    | none =>
      match child with
      | .tree t => some (readChild (.tree t))
      | .token _ => none

end

/-- The value that a tree stands for. -/
def readValue (t : Tree) : Except Malformed Value :=
  readChild (.tree t)

/-- The segments of a path. -/
def readSegments (t : Tree) : Except Malformed (List Segment) :=
  segmentsOf t.children

/-- An expression as one value. -/
def readExpression (t : Tree) : Except Malformed Value := do
  t.conjunction (← t.readConjuncts)

/-- The arguments of a call, or the one argument that the node is. -/
def readArguments (t : Tree) : Except Malformed (List Argument) :=
  if t.tag = "arguments" then do return [← t.readArgument]
  else t.readChildArguments

/-- A mutation: its name and its arguments. -/
def readMutation (t : Tree) : Except Malformed Value := do
  let name ← t.tokenAt 0
  return .mutation name.value (← t.readArguments)

/-- A parameter of a function, with its type as its value. -/
def readParameter (t : Tree) : Except Malformed Argument := do
  let type ← t.child "types"
  let name ← t.tokenAt 0
  return ⟨some name.value, ← type.readType⟩

/-- The parameters of a function. -/
def readParameters (t : Tree) : Except Malformed (List Argument) :=
  (t.childrenTagged "function_argument").mapM readParameter

end Tree

end Flowline
