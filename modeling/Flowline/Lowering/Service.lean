import Flowline.Lowering.Action
import Flowline.Tree.Dotted

/-!
Lines for service calls, mutations and function calls. A node that is written like a service call but
starts with the name of a value is a mutation of that value.
-/

namespace Flowline

namespace Tree

/-- Reads a service call. -/
def readRequest (t : Tree) : Except Malformed Request := do
  let path ← t.child "path"
  let command ← t.readCommand
  let arguments ← fragmentArguments t.children
  return {
    name := path.dottedText
    command
    args := arguments.map .argument
    output := outputNames? ((t.child? "service_fragment").bind (·.child? "output")) }

/-- Reads the chained mutations at and below a node, in document order. -/
def readChain (t : Tree) : Except Malformed (List Value) :=
  (t.findAll "chained_mutation").mapM fun chained => do
    let fragment ← chained.child "mutation_fragment"
    fragment.readMutation

/-- The method and the operands of a mutation that is written like a service call; without any mutation it
    is a `bare` line with the subject alone. -/
def readValueCommand (t : Tree) (bare : Method) : Except Malformed (Method × List Value) := do
  let path ← t.child "path"
  let subject ← path.readPath
  match (t.child? "service_fragment").bind (·.child? "command") with
  | some command => do
    let name ← command.tokenAt 0
    let arguments ← fragmentArguments t.children
    return (.mutation, subject :: .mutation name.value arguments :: (← t.readChain))
  | none => do
    let chain ← t.readChain
    return (if chain.isEmpty then bare else .mutation, subject :: chain)

end Tree

namespace LowerM

variable {σ : Type} [LineStore σ]

/-- Whether a service call starts with the name of a value. -/
def targetsValue (service : Tree) : LowerM σ Bool := do
  let path ← service.child "path"
  let root ← path.tokenAt 0
  return LineStore.isValue (← get) root.value

/-- The line of a mutation that is written like a service call. -/
def valueCommand (service : Tree) (bare : Method) (parent : Option Address) : LowerM σ Address := do
  let (method, args) ← service.readValueCommand bare
  let output := Tree.outputNames? ((service.child? "service_fragment").bind (·.child? "output"))
  append method (← service.line) { args := some args, output, parent }

/-- The line of a service call whose value is wanted. -/
def serviceLine (service : Tree) (parent : Option Address) : LowerM σ Address := do
  if ← targetsValue service then valueCommand service .set_ parent
  else do
    let line ← service.line
    let call ← service.readRequest
    invoke service (LineStore.execute · line call parent)

/-- The line of a mutation: the subject, and the mutations applied to it in order. -/
def mutationLine (t : Tree) (parent : Option Address) : LowerM σ Address := do
  let subject ← t.leadingTree
  let value ← subject.readValue
  let fragment ← t.child "mutation_fragment"
  let first ← fragment.readMutation
  let chain ← t.readChain
  append .mutation (← t.line) { args := some (value :: first :: chain), parent }

/-- The line of a function call. The function is declared before, or belongs to an imported module. -/
def callLine (t : Tree) (parent : Option Address) : LowerM σ Address := do
  let path ← t.child "path"
  t.ensure (path.findAll "inline_expression").isEmpty .functionCallNoInlineExpression []
  let name := path.dottedText
  let names := Text.dotted name
  path.ensure (names.length ≤ 2) .functionCallInvalidPath [("name", name)]
  let store ← get
  let known := (LineStore.function? store name).isSome || names.head?.any (LineStore.importsModule store)
  path.ensure known .functionCallNoFunction [("name", name)]
  let arguments ← t.readArguments
  append .call (← t.line) { args := some (arguments.map .argument), service := some name, parent }

end LowerM

end Flowline
