import Flowline.LineStore
import Flowline.Value.Reader

/-!
Lowering actions. An action changes the store and may fail with a diagnostic; when it fails, the store
stays as the failure found it.
-/

namespace Flowline

/-- An action on a store of type `σ`, which answers or fails. -/
abbrev LowerM (σ : Type) := EStateM Diagnostic σ

/-- A problem makes an action fail and leaves the store alone. -/
instance {σ : Type} : MonadLift (Except Diagnostic) (LowerM σ) where
  monadLift
    | .ok a => pure a
    | .error d => throw d

namespace LowerM

variable {σ : Type} [LineStore σ]

/-- Appends a line under a parent. -/
def append (method : Method) (sourceLine : UInt32) (fields : Draft) : LowerM σ Address :=
  modifyGet (LineStore.append · method sourceLine fields)

/-- Invokes a service that is written at `place`, where a problem is reported. -/
def invoke (place : Tree) (run : σ → Except Diagnostic (Address × σ)) : LowerM σ Address := fun s =>
  match run s with
  | .ok (address, s') => .ok address s'
  | .error d => .error (d.locate place.position?) s

/-- Continues the last line with more operands; fails at `place` unless that line has the expected method. -/
def continueLast (place : Tree) (expected : Method) (code : Code) (more : List Value) : LowerM σ Unit := do
  let extended ← modifyGet (LineStore.addArgsToLast · expected more)
  place.ensure extended code []

end LowerM

/-- A subtree together with its lowering under a parent. -/
structure Part (σ : Type) where
  tree : Tree
  lower : Option Address → LowerM σ Unit

namespace Part

variable {σ : Type}

/-- Lowers parts in order. -/
def lowerAll (parts : List (Part σ)) (parent : Option Address) : LowerM σ Unit :=
  parts.forM (·.lower parent)

/-- Lowers the parts with a tag, in order. -/
def lowerTagged (parts : List (Part σ)) (tag : String) (parent : Option Address) : LowerM σ Unit :=
  lowerAll (parts.filter (·.tree.tag == tag)) parent

/-- Lowers the first part with a tag, if there is one. -/
def lowerFirst (parts : List (Part σ)) (tag : String) (parent : Option Address) : LowerM σ Unit :=
  match parts.find? (·.tree.tag == tag) with
  | none => pure ()
  | some part => part.lower parent

/-- Lowers the body of a header, if it has one, in a scope in which the output names are bound. A body
    that fails leaves its scope open. -/
def lowerBody [LineStore σ] (parts : List (Part σ)) (header : Address) (output : Option (List String)) :
    LowerM σ Unit :=
  match parts.find? (·.tree.tag == "nested_block") with
  | none => pure ()
  | some body => do
    modify (LineStore.openScope · header (output.getD []))
    body.lower (some header)
    modify (LineStore.closeScope · header)

end Part

namespace Tree

/-- The first child, which must be a tree. -/
def leadingTree (t : Tree) : Except Malformed Tree :=
  match t.treeAt? 0 with
  | some c => .ok c
  | none => .error (.unexpected t)

/-- The first name among the children, which must be there. -/
def nameToken (t : Tree) : Except Malformed Token :=
  match t.tokenOf? "NAME" with
  | some token => .ok token
  | none => .error (.unexpected t)

/-- The names that an `output` node lists. -/
def outputNames? (output : Option Tree) : Option (List String) :=
  output.map fun t => t.tokens.map (·.value)

end Tree

end Flowline
