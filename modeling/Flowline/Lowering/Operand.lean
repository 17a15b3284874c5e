import Flowline.Lowering.Service

/-!
Operands of assignments and headers. Any operand can be lowered to one line that computes it. A header
uses an expression as it is; any other operand is first computed into a variable named after its line.
-/

namespace Flowline

/-- The kinds of node that can be lowered to a line with a value. -/
inductive OperandKind where
  | expression
  | value
  | service
  | mutation
  | call
deriving DecidableEq, Repr

/-- The kind that a tag announces. -/
def OperandKind.ofTag? : String → Option OperandKind
  | "expression" => some .expression
  | "values" | "path" => some .value
  | "service" => some .service
  | "mutation" => some .mutation
  | "call_expression" => some .call
  | _ => none

/-- The operand of a header: its values, and the line that computes it, where there is one. -/
structure Operand where
  args : List Value
  line : Option Address

/-- The operand below a node, through an optional wrapper. -/
def Tree.innerOperand (t : Tree) : Except Malformed Tree :=
  ((t.child? "base_expression").getD t).leadingTree

/-- The name of the variable into which the line at an address computes an operand. -/
def Address.operandName (a : Address) : String :=
  "__p-" ++ a.text

namespace LowerM

variable {σ : Type} [LineStore σ]

/-- Lowers an operand to one line. -/
def operandLine (operand : Tree) (parent : Option Address) : LowerM σ Address := do
  match OperandKind.ofTag? operand.tag with
  | some .expression => do
    let args ← operand.readConjuncts
    append (if operand.isLoneOperand then .set_ else .expression) (← operand.line) { args := some args, parent }
  | some .value => do
    let value ← operand.readValue
    append .set_ (← operand.line) { args := some [value], parent }
  | some .service => serviceLine operand parent
  | some .mutation => mutationLine operand parent
  | some .call => callLine operand parent
  | none => throw (Malformed.unexpected operand).diagnostic

/-- Computes an operand into a variable of its own. -/
def computedOperand (operand : Tree) (parent : Option Address) : LowerM σ Operand := do
  let address ← operandLine operand parent
  modify (LineStore.nameLast · [.name address.operandName])
  return ⟨[.ofNames [address.operandName]], some address⟩

/-- The operand of a header. -/
def headerOperand (t : Tree) (parent : Option Address) : LowerM σ Operand := do
  let operand ← t.innerOperand
  match OperandKind.ofTag? operand.tag with
  | some .expression => return ⟨← operand.readConjuncts, none⟩
  | some .value => return ⟨[← operand.readValue], none⟩
  | _ => computedOperand operand parent

end LowerM

end Flowline
