import Flowline.Manifest
import Flowline.Text.Quote

/-!
Checking the links of a manifest: addresses are unique, every link leads to a line, a body names its
header as its parent, lines follow each other in order, the program starts at its first line, and every
function is declared by a `function` line. The check stops at the first violation in this order, going
through the lines from first to last.
-/

namespace Flowline

/-- The links of a line. -/
inductive Link where
  | parent
  | enter
  | exit
  | next
deriving DecidableEq, Repr

/-- The name of a link. -/
def Link.name : Link → String
  | .parent => "parent"
  | .enter => "enter"
  | .exit => "exit"
  | .next => "next"

/-- The target of a link. -/
def Line.link? (l : Line) : Link → Option Address
  | .parent => l.parent
  | .enter => l.enter
  | .exit => l.exit
  | .next => l.next

/-- What is wrong with a manifest. -/
inductive Violation where
  | repeated (address : Address)
  | dangling (address : Address) (link : Link) (target : Address)
  | strayBody (address entered : Address) (parent : Option Address)
  | wrongNext (address : Address) (next expected : Option Address)
  | wrongEntrypoint (entrypoint : Option Address)
  | notFunction (name : String) (address : Address) (method : Option Method)
deriving DecidableEq, Repr

namespace Violation

/-- An optional thing in words. -/
def describe {α : Type} (word : α → String) : Option α → String
  | none => "None"
  | some a => "Some(" ++ word a ++ ")"

/-- An optional address in words. -/
def describeAddress : Option Address → String :=
  describe fun a => "Address(" ++ Text.quoted a.text ++ ")"

/-- An optional method in words. -/
def describeMethod : Option Method → String :=
  describe fun m => m.name.capitalize

/-- The violation in words. -/
def message : Violation → String
  | .repeated address => "address " ++ address.text ++ " allocated twice"
  | .dangling address link target => "line " ++ address.text ++ " has dangling " ++ link.name ++ " " ++ target.text
  | .strayBody address entered parent =>
    "line " ++ address.text ++ " enters " ++ entered.text ++ ", whose parent is " ++ describeAddress parent
  | .wrongNext address next expected =>
    "line " ++ address.text ++ " has next " ++ describeAddress next ++ ", expected " ++ describeAddress expected
  | .wrongEntrypoint entrypoint => "entrypoint " ++ describeAddress entrypoint ++ " is not the first line"
  | .notFunction name address method =>
    "function `" ++ name ++ "` points at " ++ address.text ++ ", which is " ++ describeMethod method

end Violation

namespace Manifest

/-- Fails with a violation unless the condition holds. -/
def demand (condition : Bool) (violation : Violation) : Except Violation Unit :=
  if condition then .ok () else .error violation

/-- Lines by their addresses, the latest entry first. -/
abbrev LineIndex := List (Address × Line)

/-- Puts lines into an index in order; no address is taken twice. -/
def indexLines (index : LineIndex) : List Line → Except Violation LineIndex
  | [] => .ok index
  | l :: rest => do
    demand (index.lookup l.address).isNone (.repeated l.address)
    indexLines ((l.address, l) :: index) rest

/-- A link leads to a line. -/
def checkLink (index : LineIndex) (l : Line) (link : Link) : Except Violation Unit :=
  match l.link? link with
  | none => .ok ()
  | some target => demand (index.lookup target).isSome (.dangling l.address link target)

/-- The body of a line names it as its parent. -/
def checkBody (index : LineIndex) (l : Line) : Except Violation Unit :=
  match l.enter.bind (index.lookup ·) with
  | none => .ok ()
  | some entered => demand (entered.parent == some l.address) (.strayBody l.address entered.address entered.parent)

/-- The links of a line, which is followed by the line at `following`. -/
def checkLine (index : LineIndex) (l : Line) (following : Option Address) : Except Violation Unit := do
  checkLink index l .parent
  checkLink index l .enter
  checkLink index l .exit
  checkLink index l .next
  checkBody index l
  demand (l.next == following) (.wrongNext l.address l.next following)

/-- The links of lines that stand in a row. -/
def checkLines (index : LineIndex) : List Line → Except Violation Unit
  | [] => .ok ()
  | l :: rest => do
    checkLine index l (rest.head?.map (·.address))
    checkLines index rest

/-- A declared function has a `function` line. -/
def checkFunction (index : LineIndex) (declared : String × Address) : Except Violation Unit :=
  let method := (index.lookup declared.2).map (·.method)
  demand (method == some .function) (.notFunction declared.1 declared.2 method)

/-- Checks the links of a manifest. -/
def check (m : Manifest) : Except Violation Unit := do
  let index ← indexLines [] m.lines
  checkLines index m.lines
  demand (m.entrypoint == m.lines.head?.map (·.address)) (.wrongEntrypoint m.entrypoint)
  m.functions.forM (checkFunction index)

end Manifest

end Flowline
