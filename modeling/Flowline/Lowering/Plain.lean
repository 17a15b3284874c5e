import Flowline.Lowering.Operand

/-! Statements without a body. -/

namespace Flowline

namespace Tree

/-- The names spelled out in a path: its root, and the further names, but not quoted subscripts. -/
def spelledNames (path : Tree) : List String :=
  path.children.filterMap fun child =>
    let token? := match child with
      | .token token => some token
      | .tree fragment => fragment.tokenAt? 0
    (token?.filter (·.kind == "NAME")).map (·.value)

/-- A variable name has neither a slash nor a dash. -/
def checkNames (path : Tree) : Except Diagnostic Unit :=
  path.spelledNames.forM fun name => do
    path.ensure (!Text.has name '/') .variablesBackslash [("name", name)]
    path.ensure (!Text.has name '-') .variablesDash [("name", name)]

/-- What is thrown: a value, a named error, or nothing. -/
def readThrown (t : Tree) : Except Malformed (List Value) :=
  match t.subtrees.head? with
  | some subject => do return [← subject.readValue]
  | none =>
    match t.tokenOf? "NAME" with
    | some name => .ok [.ofNames [name.value]]
    | none => .ok []

end Tree

namespace LowerM

variable {σ : Type} [LineStore σ]

/-- An assignment: the line of its right-hand side gets the target as its name. -/
def lowerAssignment (t : Tree) (parent : Option Address) : LowerM σ Unit := do
  let target ← t.child "path"
  target.checkNames
  let path ← target.readSegments
  let fragment ← t.child "assignment_fragment"
  let operand ← fragment.innerOperand
  let _ ← operandLine operand parent
  modify (LineStore.nameLast · path)

/-- An expression as a statement. -/
def lowerExpression (t : Tree) (parent : Option Address) : LowerM σ Unit := do
  let expression ← t.child "expression"
  let args ← expression.readConjuncts
  let _ ← append .expression (← t.line) { args := some args, parent }

/-- `return`, which stands inside a body. -/
def lowerReturn (t : Tree) (parent : Option Address) : LowerM σ Unit := do
  t.ensure parent.isSome .returnOutside []
  let args ← match t.child? "base_expression" with
    | some base => do pure (some (← headerOperand base parent).args)
    | none => pure none
  let _ ← append .return_ (← t.line) { args, parent }

/-- `break`, which stands inside a body. -/
def lowerBreak (t : Tree) (parent : Option Address) : LowerM σ Unit := do
  t.ensure parent.isSome .breakOutside []
  let _ ← append .break_ (← t.line) { parent }

/-- `throw`. -/
def lowerThrow (t : Tree) (parent : Option Address) : LowerM σ Unit := do
  let args ← t.readThrown
  let _ ← append .throw (← t.line) { args := some args, parent }

/-- The import of a module, which makes no line. -/
def lowerImport (t : Tree) : LowerM σ Unit := do
  let string ← t.child "string"
  let path ← string.tokenAt 0
  let name ← t.nameToken
  modify (LineStore.importModule · name.value (Text.unquote path.value))

/-- Mutations that continue the mutation of the line before. -/
def continueMutation (t : Tree) : LowerM σ Unit := do
  let more ← t.readChain
  continueLast t .mutation .argumentsNoMutation more

/-- Arguments that continue the service call of the line before. -/
def continueArguments (t : Tree) : LowerM σ Unit := do
  let arguments ← t.readArguments
  continueLast t .execute .argumentsNoService (arguments.map .argument)

end LowerM

end Flowline
