import Flowline.Proofs.Grammar
import Flowline.Proofs.Sessions
import Flowline.Proofs.Tables

/-! Programs lowered in a store with tables. From a coherent store, every lowering ends as it does from the
    store without the tables, with the same answer or the same problem, and the tables are coherent again.
    So a session on a store with tables gives the replies of a session on a store (`Step.runAll_refines`), and
    at each of its points every line is found by its address (`Step.runAll_consistent`). -/

namespace Flowline

/-- Both end with the same answer or the same problem, in one store, the first with coherent tables. -/
inductive EndsAlike {α : Type} : EStateM.Result Diagnostic IndexedStore α → EStateM.Result Diagnostic Store α → Prop
  | ok {a : α} {t : IndexedStore} (ht : t.Coherent) : EndsAlike (.ok a t) (.ok a t.toStore)
  | error {d : Diagnostic} {t : IndexedStore} (ht : t.Coherent) : EndsAlike (.error d t) (.error d t.toStore)

namespace LowerM

variable {α β : Type}

/-- From a coherent store, the first action ends as the second does without the tables. -/
def Refines (m : LowerM IndexedStore α) (m' : LowerM Store α) : Prop :=
  ∀ s, s.Coherent → EndsAlike (m s) (m' s.toStore)

theorem Refines.bind {m : LowerM IndexedStore α} {m' : LowerM Store α} {k : α → LowerM IndexedStore β}
    {k' : α → LowerM Store β} (h : m.Refines m') (hk : ∀ a, (k a).Refines (k' a)) : (m >>= k).Refines (m' >>= k') := by
  intro s hs
  have hm := h s hs
  show EndsAlike (EStateM.bind m k s) (EStateM.bind m' k' s.toStore)
  unfold EStateM.bind
  generalize m s = x, m' s.toStore = y at hm
  cases hm with
  | ok ht => exact hk _ _ ht
  | error ht => exact .error ht

theorem refines_pure (a : α) : (pure a : LowerM IndexedStore α).Refines (pure a) := fun _ hs => .ok hs

theorem refines_throw (d : Diagnostic) : (throw d : LowerM IndexedStore α).Refines (throw d) := fun _ hs => .error hs

theorem refines_read (x : Except Malformed α) : (liftM x : LowerM IndexedStore α).Refines (liftM x) := by
  intro s hs
  cases x with
  | ok a => exact .ok hs
  | error e => exact .error hs

theorem refines_lookUp (x : Except Missing α) : (liftM x : LowerM IndexedStore α).Refines (liftM x) := by
  intro s hs
  cases x with
  | ok a => exact .ok hs
  | error e => exact .error hs

theorem refines_check (x : Except Diagnostic α) : (liftM x : LowerM IndexedStore α).Refines (liftM x) := by
  intro s hs
  cases x with
  | ok a => exact .ok hs
  | error d => exact .error hs

theorem refines_modify {g : IndexedStore → IndexedStore} {g' : Store → Store}
    (h : ∀ s, s.Coherent → (g s).Refines (g' s.toStore)) :
    (modify g : LowerM IndexedStore Unit).Refines (modify g') := by
  intro s hs
  show EndsAlike (.ok () (g s)) (.ok () (g' s.toStore))
  rw [← (h s hs).store]
  exact .ok (h s hs).coherent

theorem refines_modifyGet {g : IndexedStore → α × IndexedStore} {g' : Store → α × Store}
    (h : ∀ s, s.Coherent → (g s).1 = (g' s.toStore).1 ∧ (g s).2.Refines (g' s.toStore).2) :
    (modifyGet g : LowerM IndexedStore α).Refines (modifyGet g') := by
  intro s hs
  obtain ⟨ha, hr⟩ := h s hs
  show EndsAlike (.ok (g s).1 (g s).2) (.ok (g' s.toStore).1 (g' s.toStore).2)
  rw [← ha, ← hr.store]
  exact .ok hr.coherent

theorem refines_append (m : Method) (ln : UInt32) (d : Draft) :
    (append m ln d : LowerM IndexedStore Address).Refines (append m ln d) :=
  refines_modifyGet fun _ hs => hs.append m ln d

theorem refines_continueLast (place : Tree) (m : Method) (code : Code) (more : List Value) :
    (continueLast place m code more : LowerM IndexedStore Unit).Refines (continueLast place m code more) :=
  (refines_modifyGet fun _ hs => hs.addArgsToLast m more).bind fun _ => refines_check _

end LowerM

/-- Both invocations append a line at the same address, or report the same problem. -/
inductive InvokesAlike : Except Diagnostic (Address × IndexedStore) → Except Diagnostic (Address × Store) → Prop
  | ok {a : Address} {t : IndexedStore} (ht : t.Coherent) : InvokesAlike (.ok (a, t)) (.ok (a, t.toStore))
  | error {d : Diagnostic} : InvokesAlike (.error d) (.error d)

theorem IndexedStore.Coherent.invoke {s : IndexedStore} (hs : s.Coherent) (m : Method) (ln : UInt32) (r : Request)
    (p : Option Address) : InvokesAlike (s.invoke m ln r p) (s.toStore.invoke m ln r p) := by
  have hregistered : (if s.isHandle r.name then s else s.registerService r.name).Refines
      (if s.isHandle r.name then s.toStore else s.toStore.registerService r.name) := by
    split
    · exact ⟨rfl, hs⟩
    · exact hs.registerService r.name
  unfold IndexedStore.invoke Store.invoke
  split
  · exact .error
  · simp only [← hregistered.store]
    obtain ⟨haddress, hstore, hcoherent⟩ := hregistered.coherent.append m ln
      { args := some r.args, output := r.output, parent := p, service := some r.name, command := r.command }
    rw [← Prod.mk.eta (p := Store.append _ m ln _), ← haddress, ← hstore]
    exact .ok hcoherent

namespace LowerM

theorem refines_invoke (place : Tree) {run : IndexedStore → Except Diagnostic (Address × IndexedStore)}
    {run' : Store → Except Diagnostic (Address × Store)} (h : ∀ s, s.Coherent → InvokesAlike (run s) (run' s.toStore)) :
    (invoke place run).Refines (invoke place run') := by
  intro s hs
  have hrun := h s hs
  unfold invoke
  generalize run s = x, run' s.toStore = y at hrun
  cases hrun with
  | ok ht => exact .ok ht
  | error => exact .error hs

theorem refines_nameLast (path : List Segment) :
    (modify (LineStore.nameLast · path) : LowerM IndexedStore Unit).Refines (modify (LineStore.nameLast · path)) :=
  refines_modify fun _ hs => hs.nameLast path

theorem refines_outputLast (names : List String) :
    (modify (LineStore.outputLast · names) : LowerM IndexedStore Unit).Refines (modify (LineStore.outputLast · names)) :=
  refines_modify fun _ hs => hs.outputLast names

theorem refines_declareFunction (name : String) (a : Address) :
    (modifyGet (LineStore.declareFunction · name a) : LowerM IndexedStore (Option Address)).Refines
      (modifyGet (LineStore.declareFunction · name a)) :=
  refines_modifyGet fun _ hs => ⟨rfl, hs.declareFunction name a⟩

theorem refines_linkExit (a : Address) :
    (modify (LineStore.linkExit · a) : LowerM IndexedStore Unit).Refines (modify (LineStore.linkExit · a)) :=
  refines_modify fun _ hs => hs.linkExit a

/-! ### Lines -/

section Lines

variable (t : Tree) (p : Option Address)

theorem refines_targetsValue : (targetsValue t : LowerM IndexedStore Bool).Refines (targetsValue t) :=
  (refines_lookUp _).bind fun _ => (refines_lookUp _).bind fun _ => fun _ hs => .ok hs

theorem refines_valueCommand (bare : Method) :
    (valueCommand t bare p : LowerM IndexedStore Address).Refines (valueCommand t bare p) :=
  (refines_read _).bind fun _ => (refines_lookUp _).bind fun _ => refines_append _ _ _

theorem refines_serviceLine : (serviceLine t p : LowerM IndexedStore Address).Refines (serviceLine t p) := by
  refine (refines_targetsValue t).bind fun targets => ?_
  cases targets with
  | true => exact refines_valueCommand t p .set_
  | false =>
    refine (refines_lookUp _).bind fun ln => (refines_read _).bind fun call => ?_
    exact refines_invoke t fun s hs => hs.invoke _ ln call p

theorem refines_mutationLine : (mutationLine t p : LowerM IndexedStore Address).Refines (mutationLine t p) :=
  (refines_read _).bind fun _ => (refines_read _).bind fun _ => (refines_lookUp _).bind fun _ =>
    (refines_read _).bind fun _ => (refines_read _).bind fun _ => (refines_lookUp _).bind fun _ => refines_append _ _ _

theorem refines_callLine : (callLine t p : LowerM IndexedStore Address).Refines (callLine t p) := by
  refine (refines_lookUp _).bind fun path => (refines_check _).bind fun _ => (refines_check _).bind fun _ => ?_
  intro s hs
  refine ((refines_check _).bind fun _ => ?_) s hs
  exact (refines_read _).bind fun _ => (refines_lookUp _).bind fun _ => refines_append _ _ _

theorem refines_operandLine : (operandLine t p : LowerM IndexedStore Address).Refines (operandLine t p) := by
  unfold operandLine
  split
  · exact (refines_read _).bind fun _ => (refines_lookUp _).bind fun _ => refines_append _ _ _
  · exact (refines_read _).bind fun _ => (refines_lookUp _).bind fun _ => refines_append _ _ _
  · exact refines_serviceLine t p
  · exact refines_mutationLine t p
  · exact refines_callLine t p
  · exact refines_throw _

theorem refines_headerOperand : (headerOperand t p : LowerM IndexedStore Operand).Refines (headerOperand t p) := by
  refine (refines_read _).bind fun operand => ?_
  split
  · exact (refines_read _).bind fun _ => refines_pure _
  · exact (refines_read _).bind fun _ => refines_pure _
  · exact (refines_operandLine operand p).bind fun _ => (refines_nameLast _).bind fun _ => refines_pure _

end Lines

/-! ### Statements without a body -/

section Plain

variable (t : Tree) (p : Option Address)

theorem refines_lowerAssignment : (lowerAssignment t p : LowerM IndexedStore Unit).Refines (lowerAssignment t p) := by
  refine (refines_lookUp _).bind fun target => (refines_check _).bind fun _ => (refines_read _).bind fun path => ?_
  refine (refines_lookUp _).bind fun fragment => (refines_read _).bind fun operand => ?_
  exact (refines_operandLine operand p).bind fun _ => refines_nameLast path

theorem refines_lowerExpression : (lowerExpression t p : LowerM IndexedStore Unit).Refines (lowerExpression t p) :=
  (refines_lookUp _).bind fun _ => (refines_read _).bind fun _ => (refines_lookUp _).bind fun _ =>
    (refines_append _ _ _).bind fun _ => refines_pure ()

theorem refines_lowerReturn : (lowerReturn t p : LowerM IndexedStore Unit).Refines (lowerReturn t p) := by
  have hline : ∀ args, (do let _ ← append .return_ (← t.line) { args, parent := p } : LowerM IndexedStore Unit).Refines
      (do let _ ← append .return_ (← t.line) { args, parent := p }) := fun args =>
    (refines_lookUp _).bind fun _ => (refines_append _ _ _).bind fun _ => refines_pure ()
  refine (refines_check _).bind fun _ => ?_
  split
  · exact (refines_headerOperand _ p).bind fun operand => hline (some operand.args)
  · exact hline none

theorem refines_lowerBreak : (lowerBreak t p : LowerM IndexedStore Unit).Refines (lowerBreak t p) :=
  (refines_check _).bind fun _ => (refines_lookUp _).bind fun _ => (refines_append _ _ _).bind fun _ => refines_pure ()

theorem refines_lowerThrow : (lowerThrow t p : LowerM IndexedStore Unit).Refines (lowerThrow t p) :=
  (refines_read _).bind fun _ => (refines_lookUp _).bind fun _ => (refines_append _ _ _).bind fun _ => refines_pure ()

theorem refines_lowerImport : (lowerImport t : LowerM IndexedStore Unit).Refines (lowerImport t) :=
  (refines_lookUp _).bind fun _ => (refines_lookUp _).bind fun _ => (refines_read _).bind fun _ =>
    refines_modify fun _ hs => hs.amend_lines rfl rfl

theorem refines_continueMutation : (continueMutation t : LowerM IndexedStore Unit).Refines (continueMutation t) :=
  (refines_read _).bind fun _ => refines_continueLast _ _ _ _

theorem refines_continueArguments : (continueArguments t : LowerM IndexedStore Unit).Refines (continueArguments t) :=
  (refines_read _).bind fun _ => refines_continueLast _ _ _ _

end Plain

end LowerM

/-! ### Statements with a body -/

/-- Parts of the same statements, with lowerings that refine each other. -/
def PartsRefine : List (Part IndexedStore) → List (Part Store) → Prop :=
  List.Forall₂ fun part part' => part.tree = part'.tree ∧ ∀ p, (part.lower p).Refines (part'.lower p)

section Blocks

open LowerM

variable {parts : List (Part IndexedStore)} {parts' : List (Part Store)} (hparts : PartsRefine parts parts')

include hparts

theorem refines_lowerAll (p : Option Address) : (Part.lowerAll parts p).Refines (Part.lowerAll parts' p) := by
  induction hparts with
  | nil => exact refines_pure ()
  | cons hpart _ ih => exact (hpart.2 p).bind fun _ => ih

theorem refines_lowerTagged (tag : String) (p : Option Address) :
    (Part.lowerTagged parts tag p).Refines (Part.lowerTagged parts' tag p) :=
  refines_lowerAll (List.rel_filter (fun _ _ hpart => by simp only [hpart.1]) hparts) p

theorem PartsRefine.find? (tag : String) :
    Option.Rel (fun part part' => ∀ p, (part.lower p).Refines (part'.lower p)) (parts.find? (·.tree.tag == tag))
      (parts'.find? (·.tree.tag == tag)) := by
  have hfound := forall₂_find? (p := (·.tree.tag == tag)) (q := (·.tree.tag == tag)) hparts fun _ _ hpart => by
    rw [hpart.1]
  generalize parts.find? (·.tree.tag == tag) = found, parts'.find? (·.tree.tag == tag) = found' at hfound
  cases hfound with
  | none => exact .none
  | some hpart => exact .some hpart.2

theorem refines_lowerFirst (tag : String) (p : Option Address) :
    (Part.lowerFirst parts tag p).Refines (Part.lowerFirst parts' tag p) := by
  have hfound := hparts.find? tag
  unfold Part.lowerFirst
  generalize parts.find? (·.tree.tag == tag) = found, parts'.find? (·.tree.tag == tag) = found' at hfound
  cases hfound with
  | none => exact refines_pure ()
  | some hpart => exact hpart p

theorem refines_lowerBody (header : Address) (output : Option (List String)) :
    (Part.lowerBody parts header output).Refines (Part.lowerBody parts' header output) := by
  have hfound := hparts.find? "nested_block"
  unfold Part.lowerBody
  generalize parts.find? (·.tree.tag == "nested_block") = found,
    parts'.find? (·.tree.tag == "nested_block") = found' at hfound
  cases hfound with
  | none => exact refines_pure ()
  | some hbody =>
    refine (refines_modify fun _ hs => hs.openScope header _).bind fun _ => (hbody (some header)).bind fun _ => ?_
    exact refines_modify fun _ hs => hs.amend_lines rfl rfl

variable (t : Tree) (p : Option Address)

theorem refines_lowerService : (lowerService t parts p).Refines (lowerService t parts' p) := by
  have hrest : ∀ service, LowerM.Refines
      (do
        if ← targetsValue service then do
          let header ← valueCommand service .expression p
          let output := (LineStore.line? (← get) header).bind (·.output)
          Part.lowerBody parts header output
        else do
          let call ← service.readRequest
          let line ← service.line
          let header ← invoke service (LineStore.execute · line call p)
          Part.lowerBody parts header call.output)
      (do
        if ← targetsValue service then do
          let header ← valueCommand service .expression p
          let output := (LineStore.line? (← get) header).bind (·.output)
          Part.lowerBody parts' header output
        else do
          let call ← service.readRequest
          let line ← service.line
          let header ← invoke service (LineStore.execute · line call p)
          Part.lowerBody parts' header call.output) := by
    intro service
    refine (refines_targetsValue service).bind fun targets => ?_
    cases targets with
    | true =>
      refine (refines_valueCommand service p .expression).bind fun header => fun s hs => ?_
      have hbody := refines_lowerBody hparts header ((s.toStore.line? header).bind (·.output)) s hs
      nth_rewrite 1 [← hs.line?_eq] at hbody
      exact hbody
    | false =>
      refine (refines_read _).bind fun call => (refines_lookUp _).bind fun ln => ?_
      exact (refines_invoke service fun s hs => hs.invoke _ ln call p).bind fun header =>
        refines_lowerBody hparts header call.output
  unfold lowerService
  split
  · exact hrest t
  · exact (refines_lookUp _).bind hrest

theorem refines_lowerMutation : (lowerMutation t parts p).Refines (lowerMutation t parts' p) := by
  have hrest : ∀ mutated, (do let header ← mutationLine mutated p; Part.lowerBody parts header none).Refines
      (do let header ← mutationLine mutated p; Part.lowerBody parts' header none) := fun mutated =>
    (refines_mutationLine mutated p).bind fun header => refines_lowerBody hparts header none
  unfold lowerMutation
  split
  · exact hrest t
  · exact (refines_lookUp _).bind hrest

theorem refines_lowerWhen : (lowerWhen t parts p).Refines (lowerWhen t parts' p) := by
  refine (refines_lookUp _).bind fun ln => ?_
  split
  · rename_i service _
    refine (refines_read _).bind fun call => ?_
    exact (refines_invoke service fun s hs => hs.invoke .when ln call p).bind fun header =>
      refines_lowerBody hparts header call.output
  · refine (refines_lookUp _).bind fun path => (refines_read _).bind fun handle => ?_
    exact (refines_append _ _ _).bind fun header => refines_lowerBody hparts header _

theorem refines_lowerIf : (lowerIf t parts p).Refines (lowerIf t parts' p) := by
  refine (refines_lookUp _).bind fun statement => (refines_headerOperand statement p).bind fun operand => ?_
  refine (refines_lookUp _).bind fun ln => (refines_append _ _ _).bind fun header => ?_
  refine (refines_lowerBody hparts header none).bind fun _ => ?_
  exact (refines_lowerTagged hparts "elseif_block" p).bind fun _ => refines_lowerFirst hparts "else_block" p

theorem refines_lowerElseIf : (lowerElseIf t parts p).Refines (lowerElseIf t parts' p) := by
  refine (refines_lookUp _).bind fun statement => (refines_headerOperand statement p).bind fun operand => ?_
  refine (refines_lookUp _).bind fun ln => (refines_append _ _ _).bind fun header => ?_
  exact (refines_linkExit _).bind fun _ => refines_lowerBody hparts header none

theorem refines_lowerLastBranch (m : Method) : (lowerLastBranch m t parts p).Refines (lowerLastBranch m t parts' p) :=
  (refines_lookUp _).bind fun _ => (refines_append _ _ _).bind fun header =>
    (refines_linkExit header).bind fun _ => refines_lowerBody hparts header none

theorem refines_lowerForeach : (lowerForeach t parts p).Refines (lowerForeach t parts' p) := by
  refine (refines_lookUp _).bind fun statement => ?_
  have hrest : ∀ subject : Tree, LowerM.Refines
      (do
        let value ← subject.readValue
        let header ← append .for_ (← statement.line)
          { args := some [value], output := Tree.outputNames? (statement.child? "output"), parent := p }
        Part.lowerBody parts header (Tree.outputNames? (statement.child? "output")))
      (do
        let value ← subject.readValue
        let header ← append .for_ (← statement.line)
          { args := some [value], output := Tree.outputNames? (statement.child? "output"), parent := p }
        Part.lowerBody parts' header (Tree.outputNames? (statement.child? "output"))) := by
    intro subject
    refine (refines_read _).bind fun value => (refines_lookUp _).bind fun ln => ?_
    exact (refines_append _ _ _).bind fun header => refines_lowerBody hparts header _
  split
  · exact (refines_pure _).bind hrest
  · exact (refines_throw _).bind hrest

theorem refines_lowerWhile : (lowerWhile t parts p).Refines (lowerWhile t parts' p) := by
  refine (refines_lookUp _).bind fun statement => (refines_lookUp _).bind fun ln => ?_
  refine (refines_headerOperand statement p).bind fun operand => (refines_append _ _ _).bind fun header => ?_
  refine (refines_lowerBody hparts header none).bind fun _ => ?_
  split
  · exact refines_pure ()
  · exact (refines_modifyGet fun _ hs => hs.copyLine _ ln (some header)).bind fun _ => refines_pure ()

theorem refines_lowerTry : (lowerTry t parts p).Refines (lowerTry t parts' p) := by
  refine (refines_lookUp _).bind fun ln => (refines_append _ _ _).bind fun header => ?_
  refine (refines_lowerBody hparts header none).bind fun _ => ?_
  exact (refines_lowerFirst hparts "catch_block" p).bind fun _ => refines_lowerFirst hparts "finally_block" p

theorem refines_lowerCatch : (lowerCatch t parts p).Refines (lowerCatch t parts' p) := by
  refine (refines_lookUp _).bind fun statement => (refines_lookUp _).bind fun ln => ?_
  refine (refines_append _ _ _).bind fun header => (refines_linkExit header).bind fun _ => ?_
  exact refines_lowerBody hparts header _

theorem refines_lowerFunction : (lowerFunction t parts p).Refines (lowerFunction t parts' p) := by
  refine (refines_lookUp _).bind fun statement => (refines_read _).bind fun name => ?_
  refine (refines_read _).bind fun parameters => (refines_lookUp _).bind fun returns => ?_
  refine (refines_lookUp _).bind fun ln => (refines_append _ _ _).bind fun header => ?_
  have hbody := refines_lowerBody hparts header (some (parameters.filterMap (·.name)))
  have hrest : (lowerDeclared parts statement name.value header parameters).Refines
      (lowerDeclared parts' statement name.value header parameters) := by
    refine (refines_declareFunction name.value header).bind fun previous => ?_
    cases previous with
    | none => exact hbody
    | some previous => exact (refines_throw _).bind fun _ => hbody
  cases returns with
  | none => exact hrest
  | some names => exact (refines_outputLast names).bind fun _ => hrest

theorem refines_statement : (statement t parts p).Refines (statement t parts' p) := by
  unfold statement
  cases Statement.ofTag? t.tag with
  | none => exact refines_throw _
  | some kind =>
    cases kind with
    | container => exact refines_lowerAll hparts p
    | assignment => exact refines_lowerAssignment t p
    | absoluteExpression => exact refines_lowerExpression t p
    | service => exact refines_lowerService hparts t p
    | mutation => exact refines_lowerMutation hparts t p
    | chain => exact refines_continueMutation t
    | arguments => exact refines_continueArguments t
    | call => exact (refines_callLine t p).bind fun _ => refines_pure ()
    | when => exact refines_lowerWhen hparts t p
    | if_ => exact refines_lowerIf hparts t p
    | elseIf => exact refines_lowerElseIf hparts t p
    | else_ => exact refines_lowerLastBranch hparts t p .else_
    | foreach => exact refines_lowerForeach hparts t p
    | while_ => exact refines_lowerWhile hparts t p
    | try_ => exact refines_lowerTry hparts t p
    | catch_ => exact refines_lowerCatch hparts t p
    | finally_ => exact refines_lowerLastBranch hparts t p .finally_
    | function => exact refines_lowerFunction hparts t p
    | return_ => exact refines_lowerReturn t p
    | break_ => exact refines_lowerBreak t p
    | throw => exact refines_lowerThrow t p
    | import_ => exact refines_lowerImport t

end Blocks

/-! ### Programs -/

theorem partsRefine_subtrees {t : Tree}
    (h : ∀ c ∈ t.subtrees, ∀ p, (c.lower p : LowerM IndexedStore Unit).Refines (c.lower p)) :
    PartsRefine (t.subtrees.map fun c => ⟨c, c.lower⟩) (t.subtrees.map fun c => ⟨c, c.lower⟩) :=
  List.forall₂_map_left_iff.mpr <| List.forall₂_map_right_iff.mpr <| List.forall₂_same.mpr fun c hc => ⟨rfl, h c hc⟩

/-- A program is lowered in a store with tables as in the store alone. -/
theorem Tree.lower_refines (t : Tree) (p : Option Address) :
    (t.lower p : LowerM IndexedStore Unit).Refines (t.lower p) := by
  induction t using subtreeInduction generalizing p with
  | step t ih =>
    rw [Tree.lower_eq, Tree.lower_eq]
    exact refines_statement (partsRefine_subtrees ih) t p

theorem Tree.lowerChildren_refines (t : Tree) (p : Option Address) :
    (t.lowerChildren p : LowerM IndexedStore Unit).Refines (t.lowerChildren p) := by
  unfold Tree.lowerChildren
  rw [Tree.partsOf_eq, Tree.partsOf_eq]
  exact refines_lowerAll (partsRefine_subtrees fun c _ => c.lower_refines) p

namespace IndexedStore

theorem coherent_empty : ({} : IndexedStore).Coherent where
  linked := Store.linked_empty
  index a i := by simp
  ordinals n := rfl
  known name := Iff.rfl

/-- The tables do not show in what a program is compiled to. -/
theorem compile_eq (t : Tree) : IndexedStore.compile t = Flowline.compile t := by
  have hlower : EndsAlike (t.lower none ({} : IndexedStore)) (t.lower none ({} : Store)) :=
    t.lower_refines none {} coherent_empty
  unfold IndexedStore.compile Flowline.compile
  generalize t.lower none ({} : IndexedStore) = x, t.lower none ({} : Store) = y at hlower
  cases hlower <;> rfl

end IndexedStore

/-! ### Sessions -/

section Sessions

variable {s : IndexedStore}

theorem EndsAlike.reply {x : EStateM.Result Diagnostic IndexedStore Unit} {y : EStateM.Result Diagnostic Store Unit}
    (h : EndsAlike x y) : (Reply.ofLowering x).1 = (Reply.ofLowering y).1 ∧
      (Reply.ofLowering x).2.Refines (Reply.ofLowering y).2 := by
  cases h with
  | ok ht => exact ⟨rfl, rfl, ht⟩
  | error ht => exact ⟨rfl, rfl, ht⟩

theorem InvokesAlike.reply {x : Except Diagnostic (Address × IndexedStore)} {y : Except Diagnostic (Address × Store)}
    (h : InvokesAlike x y) (hs : s.Coherent) :
    (Reply.ofInvocation s x).1 = (Reply.ofInvocation s.toStore y).1 ∧
      (Reply.ofInvocation s x).2.Refines (Reply.ofInvocation s.toStore y).2 := by
  cases h with
  | ok ht => exact ⟨rfl, rfl, ht⟩
  | error => exact ⟨rfl, rfl, hs⟩

/-- A step on a coherent store is answered as the step without the tables is, and leaves them coherent. -/
theorem Step.runOn_refines (step : Step) (hs : s.Coherent) :
    (step.runOn s).1 = (step.run s.toStore).1 ∧ (step.runOn s).2.Refines (step.run s.toStore).2 := by
  cases step with
  | lower tree parent => exact (tree.lower_refines parent s hs).reply
  | lowerChildren tree parent => exact (tree.lowerChildren_refines parent s hs).reply
  | append method ln fields =>
    obtain ⟨ha, hr⟩ := hs.append method ln fields
    exact ⟨congrArg Reply.appended ha, hr⟩
  | execute ln call parent => exact (hs.invoke _ ln call parent).reply hs
  | listen ln call parent => exact (hs.invoke .when ln call parent).reply hs
  | addArgs address expected more =>
    obtain ⟨ha, hr⟩ := hs.addArgs address expected more
    exact ⟨congrArg Reply.truth ha, hr⟩
  | nameLast path => exact ⟨rfl, hs.nameLast path⟩
  | outputLast names => exact ⟨rfl, hs.outputLast names⟩
  | openScope header output => exact ⟨rfl, hs.openScope header output⟩
  | closeScope | importModule => exact ⟨rfl, hs.amend_lines rfl rfl⟩
  | linkExit address => exact ⟨rfl, hs.linkExit address⟩
  | copyLine address ln parent =>
    obtain ⟨ha, hr⟩ := hs.copyLine address ln parent
    exact ⟨congrArg Reply.found ha, hr⟩
  | line address => exact ⟨congrArg Reply.line (hs.line?_eq address), rfl, hs⟩
  | declareFunction name address => exact ⟨rfl, hs.declareFunction name address⟩
  | isValue | isHandle | function | importsModule | services => exact ⟨rfl, rfl, hs⟩

theorem Step.runAllOn_refines (steps : List Step) (hs : s.Coherent) :
    (Step.runAllOn s steps).1.map (fun x => (x.1, x.2.toStore)) = (Step.runAll s.toStore steps).1 ∧
      (∀ x ∈ (Step.runAllOn s steps).1, x.2.Coherent) ∧
      (Step.runAllOn s steps).2.Refines (Step.runAll s.toStore steps).2 := by
  induction steps generalizing s with
  | nil => exact ⟨rfl, by simp [Step.runAllOn], rfl, hs⟩
  | cons step rest ih =>
    obtain ⟨hreply, hstore, hcoherent⟩ := step.runOn_refines hs
    obtain ⟨hreplies, heach, hend⟩ := ih hcoherent
    rw [hstore] at hreplies hend
    refine ⟨List.cons_eq_cons.mpr ⟨Prod.ext hreply hstore, hreplies⟩, fun x hx => ?_, hend⟩
    rcases List.mem_cons.mp hx with rfl | hx
    · exact hcoherent
    · exact heach x hx

/-- A session on a store with tables goes as the session on the store alone: the replies are the same, and so
    are the stores after each step and at the end. -/
theorem Step.runAll_refines (steps : List Step) :
    (Step.runAllOn ({} : IndexedStore) steps).1.map (fun x => (x.1, x.2.toStore)) = (Step.runAll {} steps).1 ∧
      (Step.runAllOn ({} : IndexedStore) steps).2.toStore = (Step.runAll {} steps).2 := by
  obtain ⟨hreplies, -, hend⟩ := Step.runAllOn_refines steps IndexedStore.coherent_empty
  exact ⟨hreplies, hend.store⟩

end Sessions

/-! ### Lines by their addresses -/

/-- What holds of a store with tables at every point of a session. -/
structure IndexedStore.Consistent (s : IndexedStore) : Prop where
  /-- The ordinal in an address counts the lines before from the same source line. -/
  address : ∀ (i : Nat) (l : Line), s.lines[i]? = some l →
    l.address = .ofSource l.sourceLine ((s.lines.take i).countP (·.sourceLine == l.sourceLine))
  distinct : (s.lines.map (·.address)).Nodup
  /-- The ordinals count the lines from each source line. -/
  ordinals : ∀ n, (s.ordinals.lookup n).getD 0 = s.lines.countP (·.sourceLine == n)
  /-- The index has the place of each line. -/
  index : ∀ a i, s.index.lookup a = some i ↔ ∃ l, s.lines[i]? = some l ∧ l.address = a
  known : ∀ name, name ∈ s.known ↔ name ∈ s.services
  /-- The line at an address is the one that a search of the lines finds. -/
  searched : ∀ a, s.line? a = s.lines.find? (·.address == a)
  found : ∀ a l, s.line? a = some l ↔ l ∈ s.lines ∧ l.address = a
  missing : ∀ a, s.line? a = none ↔ ∀ l ∈ s.lines, l.address ≠ a
  next : ∀ (i : Nat) (l : Line), s.lines[i]? = some l → l.next = s.lines[i + 1]?.map (·.address)
  enter : ∀ l ∈ s.lines, ∀ a, l.enter = some a → ∃ k, s.line? a = some k ∧ k.parent = some l.address
  exit : ∀ (i : Nat) (l : Line) (a : Address), s.lines[i]? = some l → l.exit = some a →
    l.method.isBranch = true ∧ ∃ j k, i < j ∧ s.lines[j]? = some k ∧ k.address = a ∧ k.parent = l.parent

theorem IndexedStore.Coherent.consistent {s : IndexedStore} (h : s.Coherent) : s.Consistent where
  address := h.linked.keyed
  distinct := h.linked.keyed.nodup
  ordinals := h.ordinals
  index := h.index
  known := h.known
  searched := h.line?_eq
  found a l := by
    rw [h.line?_eq]
    exact find?_address_iff h.linked.keyed.nodup
  missing a := by
    rw [h.line?_eq]
    simp [Store.line?]
  next := followed_iff.mp h.linked.followed
  enter l hl a ha := by
    obtain ⟨k, hk, hka, hkp⟩ := h.linked.entered l hl a ha
    exact ⟨k, (h.line?_eq a).trans ((find?_address_iff h.linked.keyed.nodup).mpr ⟨hk, hka⟩), hkp⟩
  exit := exited_iff.mp h.linked.exited

/-- Whatever the steps of a session are, the store and its tables are consistent after each of them and at the
    end. -/
theorem Step.runAll_consistent (steps : List Step) :
    (∀ x ∈ (Step.runAllOn ({} : IndexedStore) steps).1, x.2.Consistent) ∧
      (Step.runAllOn ({} : IndexedStore) steps).2.Consistent := by
  obtain ⟨-, heach, hend⟩ := Step.runAllOn_refines steps IndexedStore.coherent_empty
  exact ⟨fun x hx => (heach x hx).consistent, hend.coherent.consistent⟩

end Flowline
