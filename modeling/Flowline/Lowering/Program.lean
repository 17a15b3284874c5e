import Flowline.Lowering.Block

/-!
Lowering a whole program. Each statement is lowered by its kind; those with further statements below them
are given these as parts, each with its own lowering. A container lowers its parts in order.
-/

namespace Flowline

/-- The kinds of statement. -/
inductive Statement where
  | container
  | assignment
  | absoluteExpression
  | service
  | mutation
  | chain
  | arguments
  | call
  | when
  | if_
  | elseIf
  | else_
  | foreach
  | while_
  | try_
  | catch_
  | finally_
  | function
  | return_
  | break_
  | throw
  | import_
deriving DecidableEq, Repr

/-- The kind that a tag announces. -/
def Statement.ofTag? : String → Option Statement
  | "start" | "block" | "rules" | "nested_block" => some .container
  | "assignment" => some .assignment
  | "absolute_expression" => some .absoluteExpression
  | "service" | "service_block" => some .service
  | "mutation" | "mutation_block" => some .mutation
  | "indented_chain" => some .chain
  | "arguments" => some .arguments
  | "call_expression" => some .call
  | "when_block" => some .when
  | "if_block" => some .if_
  | "elseif_block" => some .elseIf
  | "else_block" => some .else_
  | "foreach_block" => some .foreach
  | "while_block" => some .while_
  | "try_block" => some .try_
  | "catch_block" => some .catch_
  | "finally_block" => some .finally_
  | "function_block" => some .function
  | "return_statement" => some .return_
  | "break_statement" => some .break_
  | "throw_statement" => some .throw
  | "imports" => some .import_
  | _ => none

variable {σ : Type} [LineStore σ]

/-- Lowers a statement, given its subtrees with their lowerings. -/
def LowerM.statement (t : Tree) (parts : List (Part σ)) (parent : Option Address) : LowerM σ Unit := do
  match Statement.ofTag? t.tag with
  | none => throw { code := .unknownStatement, position := t.position?, context := [("tag", t.tag)] }
  | some .container => Part.lowerAll parts parent
  | some .assignment => lowerAssignment t parent
  | some .absoluteExpression => lowerExpression t parent
  | some .service => lowerService t parts parent
  | some .mutation => lowerMutation t parts parent
  | some .chain => continueMutation t
  | some .arguments => continueArguments t
  | some .call => do let _ ← callLine t parent
  | some .when => lowerWhen t parts parent
  | some .if_ => lowerIf t parts parent
  | some .elseIf => lowerElseIf t parts parent
  | some .else_ => lowerLastBranch .else_ t parts parent
  | some .foreach => lowerForeach t parts parent
  | some .while_ => lowerWhile t parts parent
  | some .try_ => lowerTry t parts parent
  | some .catch_ => lowerCatch t parts parent
  | some .finally_ => lowerLastBranch .finally_ t parts parent
  | some .function => lowerFunction t parts parent
  | some .return_ => lowerReturn t parent
  | some .break_ => lowerBreak t parent
  | some .throw => lowerThrow t parent
  | some .import_ => lowerImport t

namespace Tree

mutual

/-- Lowers a statement under a parent. -/
def lower : Tree → Option Address → LowerM σ Unit
  | ⟨tag, children⟩ => LowerM.statement ⟨tag, children⟩ (partsOf children)

/-- The trees among these children, with their lowerings. -/
def partsOf : List Child → List (Part σ)
  | [] => []
  | .token _ :: rest => partsOf rest
  | .tree t :: rest => ⟨t, t.lower⟩ :: partsOf rest

end

theorem partsOf_eq (children : List Child) :
    (partsOf children : List (Part σ)) = (children.filterMap Child.tree?).map fun c => ⟨c, c.lower⟩ := by
  induction children with
  | nil => rfl
  | cons child rest ih => cases child <;> simp [partsOf, Child.tree?, ih, List.filterMap_cons]

/-- A statement is lowered from its subtrees, each with its own lowering. -/
theorem lower_eq (t : Tree) :
    (t.lower : Option Address → LowerM σ Unit) = LowerM.statement t (t.subtrees.map fun c => ⟨c, c.lower⟩) := by
  cases t
  rw [lower, partsOf_eq]
  rfl

/-- Lowers the statements directly below a tree, whatever its tag. -/
def lowerChildren (t : Tree) (parent : Option Address) : LowerM σ Unit :=
  Part.lowerAll (partsOf t.children) parent

end Tree

/-- The version of the format of manifests. -/
def Manifest.formatVersion : String := "0.1.0"

/-- Lowers a whole program, or reports its first problem. -/
def compile (t : Tree) : Except Diagnostic Manifest :=
  match t.lower none ({} : Store) with
  | .ok _ store => .ok (store.manifest Manifest.formatVersion)
  | .error d _ => .error d

end Flowline
