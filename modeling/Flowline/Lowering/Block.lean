import Flowline.Lowering.Plain

/-!
Statements with a body. Each appends the line of its header, lowers the body under it in a scope of its
own, and then the further branches under the parent of the header.
-/

namespace Flowline.LowerM

variable {σ : Type} [LineStore σ]

/-- A service call as a statement, or a mutation that is written like one. -/
def lowerService (t : Tree) (parts : List (Part σ)) (parent : Option Address) : LowerM σ Unit := do
  let service ← if t.tag = "service" then pure t else t.child "service"
  if ← targetsValue service then do
    let header ← valueCommand service .expression parent
    let output := (LineStore.line? (← get) header).bind (·.output)
    Part.lowerBody parts header output
  else do
    let call ← service.readRequest
    let line ← service.line
    let header ← invoke service (LineStore.execute · line call parent)
    Part.lowerBody parts header call.output

/-- A mutation as a statement. -/
def lowerMutation (t : Tree) (parts : List (Part σ)) (parent : Option Address) : LowerM σ Unit := do
  let mutated ← if t.tag = "mutation" then pure t else t.child "mutation"
  let header ← mutationLine mutated parent
  Part.lowerBody parts header none

/-- `when`, on an event of a service or on a handle. -/
def lowerWhen (t : Tree) (parts : List (Part σ)) (parent : Option Address) : LowerM σ Unit := do
  let line ← t.line
  match t.child? "service" with
  | some service => do
    let call ← service.readRequest
    let header ← invoke service (LineStore.listen · line call parent)
    Part.lowerBody parts header call.output
  | none => do
    let path ← t.child "path"
    let output := Tree.outputNames? (t.child? "output")
    let handle ← path.readPath
    let header ← append .when line { args := some [handle], output, parent }
    Part.lowerBody parts header output

/-- `if`, and the branches after it. -/
def lowerIf (t : Tree) (parts : List (Part σ)) (parent : Option Address) : LowerM σ Unit := do
  let statement ← t.child "if_statement"
  let operand ← headerOperand statement parent
  let header ← append .if_ (← statement.line) { args := some operand.args, parent }
  Part.lowerBody parts header none
  Part.lowerTagged parts "elseif_block" parent
  Part.lowerFirst parts "else_block" parent

/-- `else if`. The branch before it leads to its first line, which is the one that computes its condition
    if there is one. -/
def lowerElseIf (t : Tree) (parts : List (Part σ)) (parent : Option Address) : LowerM σ Unit := do
  let statement ← t.child "elseif_statement"
  let operand ← headerOperand statement parent
  let header ← append .elif (← statement.line) { args := some operand.args, parent }
  modify (LineStore.linkExit · (operand.line.getD header))
  Part.lowerBody parts header none

/-- A branch without a condition: `else` or `finally`. -/
def lowerLastBranch (method : Method) (t : Tree) (parts : List (Part σ)) (parent : Option Address) : LowerM σ Unit := do
  let header ← append method (← t.line) { parent }
  modify (LineStore.linkExit · header)
  Part.lowerBody parts header none

/-- `foreach`. -/
def lowerForeach (t : Tree) (parts : List (Part σ)) (parent : Option Address) : LowerM σ Unit := do
  let statement ← t.child "foreach_statement"
  let subject ← match statement.subtrees.find? (["entity", "values", "path"].contains ·.tag) with
    | some subject => pure subject
    | none => throw (Malformed.unexpected statement).diagnostic
  let output := Tree.outputNames? (statement.child? "output")
  let value ← subject.readValue
  let header ← append .for_ (← statement.line) { args := some [value], output, parent }
  Part.lowerBody parts header output

/-- `while`. A condition that is computed by a line is computed again at the end of the body. -/
def lowerWhile (t : Tree) (parts : List (Part σ)) (parent : Option Address) : LowerM σ Unit := do
  let statement ← t.child "while_statement"
  let line ← statement.line
  let operand ← headerOperand statement parent
  let header ← append .while_ line { args := some operand.args, parent }
  Part.lowerBody parts header none
  match operand.line with
  | none => pure ()
  | some computed => do
    let _ ← modifyGet (LineStore.copyLine · computed line (some header))

/-- `try`, and the branches after it. -/
def lowerTry (t : Tree) (parts : List (Part σ)) (parent : Option Address) : LowerM σ Unit := do
  let header ← append .try_ (← t.line) { parent }
  Part.lowerBody parts header none
  Part.lowerFirst parts "catch_block" parent
  Part.lowerFirst parts "finally_block" parent

/-- `catch`, which may bind the error to a name. -/
def lowerCatch (t : Tree) (parts : List (Part σ)) (parent : Option Address) : LowerM σ Unit := do
  let statement ← t.child "catch_statement"
  let output := (statement.tokenOf? "NAME").map fun name => [name.value]
  let header ← append .catch_ (← statement.line) { output, parent }
  modify (LineStore.linkExit · header)
  Part.lowerBody parts header output

/-- The types that a function says it returns. -/
def readReturns (statement : Tree) : Except Missing (Option (List String)) :=
  match statement.child? "function_output" with
  | none => .ok none
  | some output => do
    let names ← (output.childrenTagged "types").mapM (·.tokenAt 0)
    return some (names.map (·.value))

/-- The declaration of a function. Its parameters are bound in its body, and its name is taken once. -/
def lowerFunction (t : Tree) (parts : List (Part σ)) (parent : Option Address) : LowerM σ Unit := do
  let statement ← t.child "function_statement"
  let name := (← statement.nameToken).value
  let parameters ← statement.readParameters
  let returns ← readReturns statement
  let header ← append .function (← statement.line)
    { args := some (parameters.map .argument), function := some name, parent }
  match returns with
  | none => pure ()
  | some names => modify (LineStore.outputLast · names)
  match ← modifyGet (LineStore.declareFunction · name header) with
  | none => pure ()
  | some previous =>
    throw {
      code := .functionAlreadyDeclared
      position := statement.position?
      context := [("function_name", name), ("line", previous.text)] }
  Part.lowerBody parts header (some (parameters.filterMap (·.name)))

end Flowline.LowerM
