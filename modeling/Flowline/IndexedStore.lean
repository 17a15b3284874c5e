import Flowline.Lowering.Program

/-!
The store as programs are lowered in it. Besides the lines and registries it keeps tables: the place of the
line at each address, the number of lines from each source line, and the services that are registered. Its
operations read these tables and never search the lines for an address.
-/

namespace Flowline

/-- A store with its tables. A table lists its entries with the latest first, which is the one that counts. -/
structure IndexedStore extends Store where
  /-- The place of the line at each address. -/
  index : List (Address × Nat) := []
  /-- The number of lines so far from each source line. -/
  ordinals : List (UInt32 × Nat) := []
  /-- The services that are registered. -/
  known : List String := []

namespace IndexedStore

/-! ### Lines -/

/-- The place of the line at an address. -/
def position? (s : IndexedStore) (address : Address) : Option Nat :=
  s.index.lookup address

/-- The line at an address. -/
def line? (s : IndexedStore) (address : Address) : Option Line :=
  (s.position? address).bind fun i => s.lines[i]?

/-- Changes the line at an address. -/
def changeLine (s : IndexedStore) (address : Address) (f : Line → Line) : IndexedStore :=
  match s.position? address with
  | none => s
  | some i => { s with lines := s.lines.modify i f }

/-- The number of lines so far from a source line. -/
def ordinal (s : IndexedStore) (sourceLine : UInt32) : Nat :=
  (s.ordinals.lookup sourceLine).getD 0

/-- Takes the next address of a source line. -/
def allocate (s : IndexedStore) (sourceLine : UInt32) : Address × IndexedStore :=
  let ordinal := s.ordinal sourceLine
  (.ofSource sourceLine ordinal, { s with ordinals := (sourceLine, ordinal + 1) :: s.ordinals })

/-- Makes a line at `address` follow the last one, and enters the header `parent` there. -/
def link (s : IndexedStore) (parent : Option Address) (address : Address) : IndexedStore :=
  let followed := { s with lines := Line.updateLast (fun l => { l with next := some address }) s.lines }
  match parent with
  | none => followed
  | some header => followed.changeLine header (·.withEnter address)

/-- Puts a line at the end, and its place into the index. -/
def push (s : IndexedStore) (line : Line) : IndexedStore :=
  { s with lines := s.lines ++ [line], index := (line.address, s.lines.length) :: s.index }

/-- Appends a line and links it. -/
def append (s : IndexedStore) (method : Method) (sourceLine : UInt32) (draft : Draft) : Address × IndexedStore :=
  let (address, allocated) := s.allocate sourceLine
  (address, (allocated.link draft.parent address).push (draft.line address method sourceLine))

/-- Adds operands to the line at an address if it has the expected method; tells whether it did. -/
def addArgs (s : IndexedStore) (address : Address) (expected : Method) (more : List Value) : Bool × IndexedStore :=
  match s.line? address with
  | none => (false, s)
  | some line => if line.method = expected then (true, s.changeLine address (·.addArgs more)) else (false, s)

/-- Adds operands to the last line if it has the expected method; tells whether it did. -/
def addArgsToLast (s : IndexedStore) (expected : Method) (more : List Value) : Bool × IndexedStore :=
  match s.last? with
  | none => (false, s)
  | some address => s.addArgs address expected more

/-- Makes the line at an address the way out of the branch before it: the last `if`, `elif`, `try` or
    `catch` line before it that has the same parent. -/
def linkExit (s : IndexedStore) (address : Address) : IndexedStore :=
  match s.position? address with
  | none => s
  | some i =>
    let parent := s.lines[i]?.bind (·.parent)
    let before := s.lines.take i
    let linked := Line.updateLastWhere? (fun l => l.parent == parent && l.method.isBranch)
      (fun l => { l with exit := some address }) before
    { s with lines := linked.getD before ++ s.lines.drop i }

/-- Appends a copy of the line at an address, with its method, operands and name. -/
def copyLine (s : IndexedStore) (address : Address) (sourceLine : UInt32) (parent : Option Address) :
    Option Address × IndexedStore :=
  match s.line? address with
  | none => (none, s)
  | some line =>
    let (copy, s) := s.append line.method sourceLine (line.draftUnder parent)
    (some copy, { s with lines := Line.updateLast (fun l => { l with name := line.name }) s.lines })

/-! ### Scopes -/

/-- Opens the scope of the body of a header, in which its output names are bound: to handles if the header
    invokes a service. -/
def openScope (s : IndexedStore) (header : Address) (output : List String) : IndexedStore :=
  let binding := if (s.line? header).any (·.method.invokesService) then .handle else .value
  { s with scopes := (s.scopes.push header).defineAll output binding }

/-! ### Services -/

/-- Registers a service, once. -/
def registerService (s : IndexedStore) (name : String) : IndexedStore :=
  if s.known.contains name then s else { s with known := name :: s.known, services := s.services ++ [name] }

/-- Appends a line that invokes a service, which is registered unless it is a handle. The name of a
    service has no dot. -/
def invoke (s : IndexedStore) (method : Method) (sourceLine : UInt32) (request : Request) (parent : Option Address) :
    Except Diagnostic (Address × IndexedStore) :=
  if Text.has request.name '.' then .error { code := .serviceName, context := [("name", request.name)] }
  else
    let registered := if s.isHandle request.name then s else s.registerService request.name
    .ok (registered.append method sourceLine
      { args := some request.args, output := request.output, parent, service := some request.name,
        command := request.command })

end IndexedStore

/-- The operations that need no table are those of the store. -/
instance : LineStore IndexedStore where
  line? := IndexedStore.line?
  append := IndexedStore.append
  addArgs := IndexedStore.addArgs
  addArgsToLast := IndexedStore.addArgsToLast
  nameLast s path := { s with toStore := s.nameLast path }
  outputLast s names := { s with toStore := s.outputLast names }
  linkExit := IndexedStore.linkExit
  copyLine := IndexedStore.copyLine
  isValue s := s.isValue
  isHandle s := s.isHandle
  openScope := IndexedStore.openScope
  closeScope s header := { s with toStore := s.closeScope header }
  function? s := s.function?
  declareFunction s name address :=
    let (previous, store) := s.declareFunction name address
    (previous, { s with toStore := store })
  importModule s name path := { s with toStore := s.importModule name path }
  importsModule s := s.importsModule
  services s := s.services
  execute s sourceLine request parent :=
    s.invoke (if s.isHandle request.name then .call else .execute) sourceLine request parent
  listen s sourceLine request parent := s.invoke .when sourceLine request parent

/-- Lowers a whole program in a store with tables, or reports its first problem. -/
def IndexedStore.compile (t : Tree) : Except Diagnostic Manifest :=
  match t.lower none ({} : IndexedStore) with
  | .ok _ store => .ok (store.manifest Manifest.formatVersion)
  | .error d _ => .error d

end Flowline
