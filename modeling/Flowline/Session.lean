import Flowline.Lowering.Program

/-!
Sessions. A session drives one store by steps: statements to be lowered, single operations on the store,
and questions to it. A step that fails does not end the session, and the store stays as the failure left
it.
-/

namespace Flowline

/-- A step of a session. -/
inductive Step where
  | lower (tree : Tree) (parent : Option Address)
  | lowerChildren (tree : Tree) (parent : Option Address)
  | append (method : Method) (sourceLine : UInt32) (fields : Draft)
  | execute (sourceLine : UInt32) (call : Request) (parent : Option Address)
  | listen (sourceLine : UInt32) (call : Request) (parent : Option Address)
  | addArgs (address : Address) (expected : Method) (more : List Value)
  | nameLast (path : List Segment)
  | outputLast (names : List String)
  | openScope (header : Address) (output : List String)
  | closeScope (header : Address)
  | linkExit (address : Address)
  | copyLine (address : Address) (sourceLine : UInt32) (parent : Option Address)
  | line (address : Address)
  | isValue (name : String)
  | isHandle (name : String)
  | declareFunction (name : String) (address : Address)
  | function (name : String)
  | importModule (name path : String)
  | importsModule (name : String)
  | services

/-- The answer to a step. -/
inductive Reply where
  | done
  | lowered
  | failed (diagnostic : Diagnostic)
  | appended (address : Address)
  | found (address : Option Address)
  | invoked (address : Address)
  | line (line : Option Line)
  | truth (value : Bool)
  | declared (previous : Option Address)
  | names (names : List String)

namespace Reply

/-- The answer to a lowering, and the store after it. -/
def ofLowering {σ : Type} : EStateM.Result Diagnostic σ Unit → Reply × σ
  | .ok _ s => (.lowered, s)
  | .error d s => (.failed d, s)

/-- The answer to a service call on `s`, and the store after it. -/
def ofInvocation {σ : Type} (s : σ) : Except Diagnostic (Address × σ) → Reply × σ
  | .ok (header, after) => (.invoked header, after)
  | .error d => (.failed d, s)

end Reply

section Running

variable {σ : Type} [LineStore σ]

/-- Takes one step on a store of any kind: its answer, and the store after it. -/
def Step.runOn (s : σ) : Step → Reply × σ
  | .lower tree parent => Reply.ofLowering (tree.lower parent s)
  | .lowerChildren tree parent => Reply.ofLowering (tree.lowerChildren parent s)
  | .append method sourceLine fields =>
    let (address, s) := LineStore.append s method sourceLine fields
    (.appended address, s)
  | .execute sourceLine call parent => Reply.ofInvocation s (LineStore.execute s sourceLine call parent)
  | .listen sourceLine call parent => Reply.ofInvocation s (LineStore.listen s sourceLine call parent)
  | .addArgs address expected more =>
    let (extended, s) := LineStore.addArgs s address expected more
    (.truth extended, s)
  | .nameLast path => (.done, LineStore.nameLast s path)
  | .outputLast names => (.done, LineStore.outputLast s names)
  | .openScope header output => (.done, LineStore.openScope s header output)
  | .closeScope header => (.done, LineStore.closeScope s header)
  | .linkExit address => (.done, LineStore.linkExit s address)
  | .copyLine address sourceLine parent =>
    let (copy, s) := LineStore.copyLine s address sourceLine parent
    (.found copy, s)
  | .line address => (.line (LineStore.line? s address), s)
  | .isValue name => (.truth (LineStore.isValue s name), s)
  | .isHandle name => (.truth (LineStore.isHandle s name), s)
  | .declareFunction name address =>
    let (previous, s) := LineStore.declareFunction s name address
    (.declared previous, s)
  | .function name => (.found (LineStore.function? s name), s)
  | .importModule name path => (.done, LineStore.importModule s name path)
  | .importsModule name => (.truth (LineStore.importsModule s name), s)
  | .services => (.names (LineStore.services s), s)

/-- Takes steps in order: the answer to each with the store after it, and the store at the end. -/
def Step.runAllOn (s : σ) : List Step → List (Reply × σ) × σ
  | [] => ([], s)
  | step :: rest =>
    let (reply, s) := step.runOn s
    let (replies, final) := runAllOn s rest
    ((reply, s) :: replies, final)

end Running

/-- Takes one step on a store. -/
def Step.run (s : Store) (step : Step) : Reply × Store :=
  step.runOn s

/-- Takes steps in order on a store. -/
def Step.runAll (s : Store) (steps : List Step) : List (Reply × Store) × Store :=
  runAllOn s steps

end Flowline
