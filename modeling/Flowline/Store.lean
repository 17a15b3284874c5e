import Flowline.Diagnostic
import Flowline.Manifest
import Flowline.Scope
import Flowline.Text.Split

/-!
The store of a program that is being lowered: the lines so far, in order, the open scopes, and the
registries of modules, functions and services. Every operation is a function from a store to a store.
Appending a line links it: the line before it gets it as `next`, and a header whose body it opens gets it
as `enter`.
-/

namespace Flowline

/-- What a line to be appended holds, besides its method and its source line. -/
structure Draft where
  args : Option (List Value) := none
  output : Option (List String) := none
  parent : Option Address := none
  service : Option String := none
  command : Option String := none
  function : Option String := none

/-- The line that a draft makes, not linked yet. -/
def Draft.line (d : Draft) (address : Address) (method : Method) (sourceLine : UInt32) : Line :=
  { address, method, sourceLine, service := d.service, command := d.command, function := d.function, args := d.args,
    output := d.output, parent := d.parent }

/-- A service call as it is written: name, command, arguments, and the names bound to its output. -/
structure Request where
  name : String
  command : Option String
  args : List Value
  output : Option (List String)

/-- A program that is being lowered. -/
structure Store where
  lines : List Line := []
  scopes : Scopes := {}
  modules : List (String × String) := []
  functions : List (String × Address) := []
  services : List String := []

namespace Line

/-- Changes the last line. -/
def updateLast (f : Line → Line) : List Line → List Line
  | [] => []
  | [l] => [f l]
  | l :: m :: rest => l :: updateLast f (m :: rest)

/-- Changes the last line of which `p` holds, if there is one. -/
def updateLastWhere? (p : Line → Bool) (f : Line → Line) : List Line → Option (List Line)
  | [] => none
  | l :: rest =>
    match updateLastWhere? p f rest with
    | some updated => some (l :: updated)
    | none => if p l then some (f l :: rest) else none

/-- Makes `address` the start of the body, unless the body has started already. -/
def withEnter (l : Line) (address : Address) : Line :=
  if l.enter.isNone then { l with enter := some address } else l

/-- Adds operands. -/
def addArgs (l : Line) (more : List Value) : Line :=
  { l with args := some (l.args.getD [] ++ more) }

/-- What the line holds, put under another parent. -/
def draftUnder (l : Line) (parent : Option Address) : Draft :=
  { args := l.args, output := l.output, parent, service := l.service, command := l.command, function := l.function }

end Line

namespace Store

/-! ### Lines -/

/-- The line at an address. -/
def line? (s : Store) (address : Address) : Option Line :=
  s.lines.find? (·.address == address)

/-- The address of the line appended last. -/
def last? (s : Store) : Option Address :=
  s.lines.getLast?.map (·.address)

/-- The address that the next line from this source line gets. -/
def fresh (s : Store) (sourceLine : UInt32) : Address :=
  .ofSource sourceLine (s.lines.countP (·.sourceLine == sourceLine))

/-- The line that appending adds. -/
def newLine (s : Store) (method : Method) (sourceLine : UInt32) (draft : Draft) : Line :=
  draft.line (s.fresh sourceLine) method sourceLine

/-- Appends a line and links it. -/
def append (s : Store) (method : Method) (sourceLine : UInt32) (draft : Draft) : Address × Store :=
  let line := s.newLine method sourceLine draft
  let followed := Line.updateLast (fun l => { l with next := some line.address }) s.lines
  let entered := followed.map fun l => if draft.parent = some l.address then l.withEnter line.address else l
  (line.address, { s with lines := entered ++ [line] })

/-- Adds operands to the line at an address if it has the expected method; tells whether it did. -/
def addArgs (s : Store) (address : Address) (expected : Method) (more : List Value) : Bool × Store :=
  match s.line? address with
  | none => (false, s)
  | some line =>
    if line.method = expected then
      (true, { s with lines := s.lines.map fun l => if l.address = address then l.addArgs more else l })
    else (false, s)

/-- Adds operands to the last line if it has the expected method; tells whether it did. -/
def addArgsToLast (s : Store) (expected : Method) (more : List Value) : Bool × Store :=
  match s.last? with
  | none => (false, s)
  | some address => s.addArgs address expected more

/-- Gives the last line the path it assigns to, and binds the root of that path. -/
def nameLast (s : Store) (path : List Segment) : Store :=
  let scopes := match path with
    | .name root :: _ => s.scopes.define root .value
    | _ => s.scopes
  { s with scopes, lines := Line.updateLast (fun l => { l with name := some path }) s.lines }

/-- Gives the last line its output names. -/
def outputLast (s : Store) (names : List String) : Store :=
  { s with lines := Line.updateLast (fun l => { l with output := some names }) s.lines }

/-- Makes the line at an address the way out of the branch before it: the last `if`, `elif`, `try` or
    `catch` line before it that has the same parent. -/
def linkExit (s : Store) (address : Address) : Store :=
  let before := s.lines.takeWhile (·.address != address)
  match s.lines.dropWhile (·.address != address) with
  | [] => s
  | target :: after =>
    let linked := Line.updateLastWhere? (fun l => l.parent == target.parent && l.method.isBranch)
      (fun l => { l with exit := some address }) before
    { s with lines := linked.getD before ++ target :: after }

/-- Appends a copy of the line at an address, with its method, operands and name. -/
def copyLine (s : Store) (address : Address) (sourceLine : UInt32) (parent : Option Address) :
    Option Address × Store :=
  match s.line? address with
  | none => (none, s)
  | some line =>
    let (copy, s) := s.append line.method sourceLine (line.draftUnder parent)
    (some copy, { s with lines := Line.updateLast (fun l => { l with name := line.name }) s.lines })

/-! ### Scopes -/

/-- Whether a name stands for a value. -/
def isValue (s : Store) (name : String) : Bool :=
  s.scopes.lookup? name == some .value

/-- Whether a name stands for the handle of a service. -/
def isHandle (s : Store) (name : String) : Bool :=
  s.scopes.lookup? name == some .handle

/-- What the output names of a header stand for in its body: handles if the header invokes a service. -/
def outputBinding (s : Store) (header : Address) : Binding :=
  if (s.line? header).any (·.method.invokesService) then .handle else .value

/-- Opens the scope of the body of a header, in which its output names are bound. -/
def openScope (s : Store) (header : Address) (output : List String) : Store :=
  { s with scopes := (s.scopes.push header).defineAll output (s.outputBinding header) }

/-- Closes the scope of the body of a header. -/
def closeScope (s : Store) (header : Address) : Store :=
  { s with scopes := s.scopes.pop header }

/-! ### Registries -/

/-- The address at which a function is declared. -/
def function? (s : Store) (name : String) : Option Address :=
  s.functions.lookup name

/-- Declares a function. If it is declared already, that address is answered and nothing changes. -/
def declareFunction (s : Store) (name : String) (address : Address) : Option Address × Store :=
  match s.function? name with
  | some previous => (some previous, s)
  | none => (none, { s with functions := s.functions ++ [(name, address)] })

/-- Imports the module at a path under a name. -/
def importModule (s : Store) (name path : String) : Store :=
  { s with modules := s.modules ++ [(name, path)] }

/-- Whether a module is imported under a name. -/
def importsModule (s : Store) (name : String) : Bool :=
  s.modules.any (·.1 == name)

/-- Registers a service, once. -/
def registerService (s : Store) (name : String) : Store :=
  if s.services.contains name then s else { s with services := s.services ++ [name] }

/-! ### Service calls -/

/-- Appends a line that invokes a service, which is registered unless it is a handle. The name of a
    service has no dot. -/
def invoke (s : Store) (method : Method) (sourceLine : UInt32) (request : Request) (parent : Option Address) :
    Except Diagnostic (Address × Store) :=
  if Text.has request.name '.' then .error { code := .serviceName, context := [("name", request.name)] }
  else
    let registered := if s.isHandle request.name then s else s.registerService request.name
    .ok (registered.append method sourceLine
      { args := some request.args, output := request.output, parent, service := some request.name,
        command := request.command })

/-- Appends a line that executes a service, or that calls a handle. -/
def execute (s : Store) (sourceLine : UInt32) (request : Request) (parent : Option Address) :
    Except Diagnostic (Address × Store) :=
  s.invoke (if s.isHandle request.name then .call else .execute) sourceLine request parent

/-- Appends a line that listens for an event of a service. -/
def listen (s : Store) (sourceLine : UInt32) (request : Request) (parent : Option Address) :
    Except Diagnostic (Address × Store) :=
  s.invoke .when sourceLine request parent

/-! ### The finished program -/

/-- The store as a manifest that starts at its first line. -/
def manifest (s : Store) (version : String) : Manifest :=
  { lines := s.lines, version, services := s.services, functions := s.functions,
    entrypoint := s.lines.head?.map (·.address), modules := s.modules }

end Store

end Flowline
