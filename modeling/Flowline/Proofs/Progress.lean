import Flowline.Proofs.Action
import Flowline.Proofs.Reading
import Flowline.Tree.Shape

/-! Lowering a conforming tree never finds fault with the tree. An action is proper if, from whatever store, it
    answers or fails for a reason that lies in the script. What the handlers read is there, by the grammar, so
    that each of them is proper if the lowerings of its parts are. -/

namespace Flowline

/-! ### Parts of statements -/

namespace Tree

variable {t : Tree}

theorem readArguments_succeeds (h : t.Conforms) : Succeeds t.readArguments := by
  unfold readArguments
  split
  · rename_i htag
    exact (h.grammatical.reads.argument ⟨htag, h.grammatical⟩).map
  · exact h.grammatical.reads.arguments

theorem readMutation_succeeds (h : t.Is .mutationFragment) : Succeeds t.readMutation := by
  have htoken : Succeeds (t.tokenAt 0) := h.first_token rfl
  exact htoken.lift_bind fun _ _ => (readArguments_succeeds h.conforms).map

theorem readChain_succeeds (h : t.Conforms) : Succeeds t.readChain := by
  refine succeeds_mapM fun u hu => ?_
  obtain ⟨hmem, htag⟩ := List.mem_filter.mp hu
  have hchained : u.Is .chainedMutation := ⟨beq_iff_eq.mp htag, h.descendant hmem⟩
  obtain ⟨fragment, hchild, hfragment⟩ := hchained.child .mutationFragment rfl
  exact succeeds_bind_of_ok hchild (readMutation_succeeds hfragment)

theorem fragmentArguments_children_succeeds (h : t.Conforms) : Succeeds (fragmentArguments t.children) :=
  fragmentArguments_succeeds_of_subtrees fun _ hu => (h.subtree hu).grammatical.reads

theorem readRequest_succeeds (h : t.Is .service) : Succeeds t.readRequest := by
  obtain ⟨path, hchild, -⟩ := h.child .path rfl
  refine succeeds_bind_of_ok hchild ((readCommand_succeeds h.conforms.grammatical).lift_bind fun _ _ => ?_)
  exact (fragmentArguments_children_succeeds h.conforms).map

theorem readPath_succeeds (h : t.Is .path) : Succeeds t.readPath := by
  have hsegments := h.conforms.grammatical.reads.segments h.obeys
  cases t
  rw [readPath]
  exact hsegments.map

theorem readValueCommand_succeeds (h : t.Is .service) (bare : Method) : Succeeds (t.readValueCommand bare) := by
  obtain ⟨path, hchild, hpath⟩ := h.child .path rfl
  have hchain := readChain_succeeds h.conforms
  refine succeeds_bind_of_ok hchild ((readPath_succeeds hpath).bind fun _ _ => ?_)
  split
  · rename_i command hcommand
    obtain ⟨fragment, hfragment, hcommand⟩ := Option.bind_eq_some_iff.mp hcommand
    have hconforms := (h.conforms.child? hfragment .serviceFragment rfl).conforms
    have htoken : Succeeds (command.tokenAt 0) := (hconforms.child? hcommand .command rfl).first_token rfl
    refine htoken.lift_bind fun _ _ => ?_
    exact (fragmentArguments_children_succeeds h.conforms).bind fun _ _ => hchain.map
  · exact hchain.map

theorem readParameters_succeeds (h : t.Conforms) : Succeeds t.readParameters := by
  refine succeeds_mapM fun u hu => ?_
  have hparameter := h.tagged hu .functionArgument rfl
  have htoken : Succeeds (u.tokenAt 0) := hparameter.first_token rfl
  obtain ⟨type, hchild, htype⟩ := hparameter.child .types rfl
  have hname : Succeeds (type.tokenAt 0) := htype.first_token rfl
  refine succeeds_bind_of_ok hchild (htoken.lift_bind fun _ _ => ?_)
  have hread : Succeeds type.readType := hname.lift_bind fun _ _ => succeeds_pure _
  exact hread.map

theorem readReturns_succeeds (h : t.Conforms) : Succeeds (LowerM.readReturns t) := by
  unfold LowerM.readReturns
  split
  · exact succeeds_pure none
  · rename_i output houtput
    have hnames : Succeeds ((output.childrenTagged "types").mapM (·.tokenAt 0)) := succeeds_mapM fun u hu =>
      ((h.child? houtput .functionOutput rfl).conforms.tagged hu .types rfl).first_token rfl
    exact hnames.map

theorem readThrown_succeeds (h : t.Is .throwStatement) : Succeeds t.readThrown := by
  unfold readThrown
  split
  · rename_i subject hsubject
    have hmem := List.mem_of_mem_head? hsubject
    exact ((h.conforms.subtree hmem).grammatical.reads.value (h.obeys.subtree Grammar.valueKinds hmem rfl)).map
  · split <;> exact ⟨_, rfl⟩

end Tree

/-! ### Proper actions -/

namespace LowerM

variable {α β : Type} {m : LowerM Store α} {f : α → LowerM Store β}

/-- From every store, the action answers or fails for a reason that lies in the script. -/
def Proper (m : LowerM Store α) : Prop :=
  ∀ s, m.Ends s (fun _ _ => True) fun d _ => d.isInternal = false

theorem Proper.bind (hm : m.Proper) (hf : ∀ a, (f a).Proper) : (m >>= f).Proper := fun s =>
  Ends.bind ((hm s).mono (fun a t _ => hf a t) fun _ _ h => h)

theorem Proper.map {g : α → β} (hm : m.Proper) : (do return g (← m)).Proper :=
  hm.bind fun _ _ => ends_pure trivial

theorem proper_pure (a : α) : (pure a : LowerM Store α).Proper := fun _ => ends_pure trivial

theorem proper_get : (get : LowerM Store Store).Proper := fun _ => ends_get trivial

theorem proper_modify (g : Store → Store) : (modify g : LowerM Store Unit).Proper := fun _ => ends_modify trivial

theorem proper_modifyGet (g : Store → α × Store) : (modifyGet g : LowerM Store α).Proper :=
  fun _ => ends_modifyGet trivial

theorem proper_append (method : Method) (ln : UInt32) (d : Draft) : (append method ln d).Proper := fun _ =>
  ends_append trivial

/-- Nothing goes wrong in reading what can be read. -/
theorem proper_read {x : Except Malformed α} {a : α} (hx : x = .ok a) (hf : (f a).Proper) : (liftM x >>= f).Proper := by
  subst hx
  exact hf

theorem proper_lookUp {x : Except Missing α} {a : α} (hx : x = .ok a) (hf : (f a).Proper) :
    (liftM x >>= f).Proper := by
  subst hx
  exact hf

theorem proper_ensure (t : Tree) (condition : Bool) {code : Code} (context : List (String × String))
    (hcode : code.isInternal = false) : (liftM (t.ensure condition code context) : LowerM Store Unit).Proper := fun _ =>
  ends_liftM_diagnostic (fun _ _ => trivial) fun d hd => by rwa [Tree.ensure_error hd]

theorem proper_checkNames (t : Tree) : (liftM t.checkNames : LowerM Store Unit).Proper := fun _ =>
  ends_liftM_diagnostic (fun _ _ => trivial) fun d hd => by
    obtain ⟨name, rfl | rfl⟩ := Tree.checkNames_error hd <;> rfl

theorem proper_invoke (place : Tree) (method : Store → Method) (ln : UInt32) (r : Request) (p : Option Address) :
    (invoke place fun s => s.invoke (method s) ln r p).Proper := by
  intro s
  unfold invoke Store.invoke Ends
  by_cases hdot : Text.has r.name '.' = true
  · simp only [hdot, if_true]
    rfl
  · simp only [hdot, Bool.false_eq_true, if_false]

theorem proper_continueLast (place : Tree) (expected : Method) {code : Code} (more : List Value)
    (hcode : code.isInternal = false) : (continueLast place expected code more).Proper :=
  (proper_modifyGet _).bind fun _ => proper_ensure _ _ _ hcode

end LowerM

/-! ### Lines -/

namespace LowerM

variable {t : Tree} {p : Option Address}

theorem targetsValue_proper (h : t.Is .service) : (targetsValue t).Proper := by
  obtain ⟨path, hchild, hpath⟩ := h.child .path rfl
  obtain ⟨root, hroot⟩ := hpath.first_token rfl
  exact proper_lookUp hchild (proper_lookUp hroot (proper_get.bind fun _ => proper_pure _))

theorem valueCommand_proper (h : t.Is .service) (bare : Method) : (valueCommand t bare p).Proper := by
  obtain ⟨⟨method, args⟩, hread⟩ := Tree.readValueCommand_succeeds h bare
  obtain ⟨ln, hline⟩ := h.line (by decide)
  exact proper_read hread (proper_lookUp hline (proper_append _ _ _))

theorem serviceLine_proper (h : t.Is .service) : (serviceLine t p).Proper := by
  refine (targetsValue_proper h).bind fun b => ?_
  cases b with
  | true => exact valueCommand_proper h .set_
  | false =>
    obtain ⟨ln, hline⟩ := h.line (by decide)
    obtain ⟨request, hrequest⟩ := Tree.readRequest_succeeds h
    exact proper_lookUp hline (proper_read hrequest (proper_invoke _ _ _ _ _))

theorem mutationLine_proper (h : t.Is .mutation) : (mutationLine t p).Proper := by
  obtain ⟨subject, hsubject, k, hk, hkind⟩ := h.leadingTree Grammar.valueKinds rfl
  obtain ⟨value, hvalue⟩ := hkind.conforms.grammatical.reads.value ⟨k, hk, hkind.obeys⟩
  obtain ⟨fragment, hchild, hfragment⟩ := h.child .mutationFragment rfl
  obtain ⟨first, hfirst⟩ := Tree.readMutation_succeeds hfragment
  obtain ⟨chain, hchain⟩ := Tree.readChain_succeeds h.conforms
  obtain ⟨ln, hline⟩ := h.line (by decide)
  refine proper_read hsubject (proper_read hvalue (proper_lookUp hchild (proper_read hfirst ?_)))
  exact proper_read hchain (proper_lookUp hline (proper_append _ _ _))

theorem callLine_proper (h : t.Is .callExpression) : (callLine t p).Proper := by
  obtain ⟨path, hchild, -⟩ := h.child .path rfl
  obtain ⟨arguments, harguments⟩ := Tree.readArguments_succeeds h.conforms
  obtain ⟨ln, hline⟩ := h.line (by decide)
  refine proper_lookUp hchild ((proper_ensure _ _ _ rfl).bind fun _ => (proper_ensure _ _ _ rfl).bind fun _ => ?_)
  refine proper_get.bind fun _ => (proper_ensure _ _ _ rfl).bind fun _ => ?_
  exact proper_read harguments (proper_lookUp hline (proper_append _ _ _))

end LowerM

/-! ### Operands -/

/-- What can be computed by a line of its own. -/
def Grammar.operandKinds : List NodeKind :=
  [.expression, .service, .mutation, .callExpression]

theorem Tree.Is.innerOperand {t : Tree} {k : NodeKind} (h : t.Is k)
    (hr : (Grammar.rule k).requires (Symbol.isNodeOf [.baseExpression]) = true) :
    ∃ u, t.innerOperand = .ok u ∧ ∃ k ∈ Grammar.operandKinds, u.Is k := by
  obtain ⟨base, hchild, hbase⟩ := h.child .baseExpression hr
  obtain ⟨u, hu, hkind⟩ := hbase.leadingTree Grammar.operandKinds rfl
  refine ⟨u, ?_, hkind⟩
  rw [Tree.innerOperand, show t.child? "base_expression" = some base from Tree.child?_of_child hchild]
  exact hu

theorem Tree.Is.innerOperand_base {t : Tree} (h : t.Is .baseExpression) :
    ∃ u, t.innerOperand = .ok u ∧ ∃ k ∈ Grammar.operandKinds, u.Is k := by
  have hnone : t.child? "base_expression" = none := by
    refine List.find?_eq_none.mpr fun u hu => ?_
    obtain ⟨k, hk, hkind⟩ := h.subtree Grammar.operandKinds hu rfl
    have hne : u.tag ≠ "base_expression" := NodeKind.tag_ne .baseExpression hk hkind.tag (by decide)
    simpa using hne
  obtain ⟨u, hu, hkind⟩ := h.leadingTree Grammar.operandKinds rfl
  refine ⟨u, ?_, hkind⟩
  rw [Tree.innerOperand, hnone]
  exact hu

namespace Tree.Is

variable {t : Tree}

/-- A listener that names no service names a path. -/
theorem listener_path (h : t.Is .whenBlock) (hnone : t.child? "service" = none) :
    ∃ path, t.child "path" = .ok path ∧ path.Is .path := by
  obtain ⟨u, hu, k, hk, hkind⟩ := h.exists_subtree [.service, .path] rfl
  simp only [List.mem_cons, List.not_mem_nil, or_false] at hk
  rcases hk with rfl | rfl
  · exact absurd (beq_iff_eq.mpr hkind.tag) (List.find?_eq_none.mp hnone u hu)
  · exact h.conforms.child_of_mem hu hkind.tag

theorem loop_subject (h : t.Is .foreachStatement) :
    ∃ subject, t.subtrees.find? (["entity", "values", "path"].contains ·.tag) = some subject ∧
      Succeeds subject.readValue := by
  obtain ⟨u, hu, k, hk, hkind⟩ := h.exists_subtree [.entity, .values, .path] rfl
  have hsome : (t.subtrees.find? (["entity", "values", "path"].contains ·.tag)).isSome = true := by
    rw [List.find?_isSome]
    refine ⟨u, hu, ?_⟩
    simp only [List.mem_cons, List.not_mem_nil, or_false] at hk
    rcases hk with rfl | rfl | rfl <;> simp [hkind.tag, NodeKind.tag]
  obtain ⟨subject, hsubject⟩ := Option.isSome_iff_exists.mp hsome
  have hgrammatical := h.conforms.grammatical.subtree (List.mem_of_find?_eq_some hsubject)
  refine ⟨subject, hsubject, hgrammatical.reads.value ?_⟩
  have htag : subject.tag = "entity" ∨ subject.tag = "values" ∨ subject.tag = "path" := by
    simpa using List.find?_some hsubject
  rcases htag with htag | htag | htag
  · exact ⟨.entity, by decide, htag, hgrammatical⟩
  · exact ⟨.values, by decide, htag, hgrammatical⟩
  · exact ⟨.path, by decide, htag, hgrammatical⟩

end Tree.Is

namespace LowerM

variable {t u : Tree} {p : Option Address}

theorem operandLine_proper (h : ∃ k ∈ Grammar.operandKinds, t.Is k) : (operandLine t p).Proper := by
  obtain ⟨k, hk, h⟩ := h
  have ht := h.tag
  simp only [Grammar.operandKinds, List.mem_cons, List.not_mem_nil, or_false] at hk
  unfold operandLine
  rcases hk with rfl | rfl | rfl | rfl <;> simp only [ht, NodeKind.tag, OperandKind.ofTag?]
  · obtain ⟨v, vs, hconjuncts⟩ := h.conforms.grammatical.reads.conjuncts h.obeys
    obtain ⟨ln, hline⟩ := h.line (by decide)
    exact proper_read hconjuncts (proper_lookUp hline (proper_append _ _ _))
  · exact serviceLine_proper h
  · exact mutationLine_proper h
  · exact callLine_proper h

theorem headerOperand_proper (hu : t.innerOperand = .ok u) (h : ∃ k ∈ Grammar.operandKinds, u.Is k) :
    (headerOperand t p).Proper := by
  have hcomputed : (computedOperand u p).Proper :=
    (operandLine_proper h).bind fun _ => (proper_modify _).bind fun _ => proper_pure _
  obtain ⟨k, hk, h⟩ := h
  have htag := h.tag
  refine proper_read hu ?_
  simp only [Grammar.operandKinds, List.mem_cons, List.not_mem_nil, or_false] at hk
  rcases hk with rfl | rfl | rfl | rfl <;> simp only [htag, NodeKind.tag, OperandKind.ofTag?]
  · obtain ⟨v, vs, hconjuncts⟩ := h.conforms.grammatical.reads.conjuncts h.obeys
    exact proper_read hconjuncts (proper_pure _)
  · exact hcomputed
  · exact hcomputed
  · exact hcomputed

/-! ### Statements without a body -/

theorem lowerAssignment_proper (h : t.Is .assignment) : (lowerAssignment t p).Proper := by
  obtain ⟨target, htarget, hpath⟩ := h.child .path rfl
  obtain ⟨path, hsegments⟩ := hpath.conforms.grammatical.reads.segments hpath.obeys
  obtain ⟨fragment, hchild, hfragment⟩ := h.child .assignmentFragment rfl
  obtain ⟨operand, hoperand, hkind⟩ := hfragment.innerOperand rfl
  refine proper_lookUp htarget ((proper_checkNames target).bind fun _ => proper_read hsegments ?_)
  refine proper_lookUp hchild (proper_read hoperand ?_)
  exact (operandLine_proper hkind).bind fun _ => proper_modify _

theorem lowerExpression_proper (h : t.Is .absoluteExpression) : (lowerExpression t p).Proper := by
  obtain ⟨expression, hchild, hexpression⟩ := h.child .expression rfl
  obtain ⟨v, vs, hconjuncts⟩ := hexpression.conforms.grammatical.reads.conjuncts hexpression.obeys
  obtain ⟨ln, hline⟩ := h.line (by decide)
  refine proper_lookUp hchild (proper_read hconjuncts (proper_lookUp hline ?_))
  exact (proper_append _ _ _).map

theorem lowerReturn_proper (h : t.Is .returnStatement) : (lowerReturn t p).Proper := by
  obtain ⟨ln, hline⟩ := h.line (by decide)
  refine (proper_ensure _ _ _ rfl).bind fun _ => ?_
  -- The line is appended in the same way with a value and without.
  have hrest : ∀ args, Proper (do
      let _ ← append .return_ (← t.line) { args, parent := p }) := fun args =>
    proper_lookUp hline ((proper_append _ _ _).map)
  split
  · rename_i base hbase
    obtain ⟨operand, hoperand, hkind⟩ := (h.conforms.child? hbase .baseExpression rfl).innerOperand_base
    exact (headerOperand_proper hoperand hkind).bind fun _ => (proper_pure _).bind hrest
  · exact (proper_pure none).bind hrest

theorem lowerBreak_proper (h : t.Is .breakStatement) : (lowerBreak t p).Proper := by
  obtain ⟨ln, hline⟩ := h.line (by decide)
  refine (proper_ensure _ _ _ rfl).bind fun _ => proper_lookUp hline ?_
  exact (proper_append _ _ _).map

theorem lowerThrow_proper (h : t.Is .throwStatement) : (lowerThrow t p).Proper := by
  obtain ⟨args, hargs⟩ := Tree.readThrown_succeeds h
  obtain ⟨ln, hline⟩ := h.line (by decide)
  exact proper_read hargs (proper_lookUp hline ((proper_append _ _ _).map))

theorem lowerImport_proper (h : t.Is .imports) : (lowerImport t).Proper := by
  obtain ⟨string, hchild, hstring⟩ := h.child .string rfl
  obtain ⟨path, hpath⟩ := hstring.first_token rfl
  obtain ⟨name, hname⟩ := h.nameToken (by decide)
  exact proper_lookUp hchild (proper_lookUp hpath (proper_read hname (proper_modify _)))

theorem continueMutation_proper (h : t.Conforms) : (continueMutation t).Proper := by
  obtain ⟨more, hmore⟩ := Tree.readChain_succeeds h
  exact proper_read hmore (proper_continueLast _ _ _ rfl)

theorem continueArguments_proper (h : t.Conforms) : (continueArguments t).Proper := by
  obtain ⟨arguments, harguments⟩ := Tree.readArguments_succeeds h
  exact proper_read harguments (proper_continueLast _ _ _ rfl)

/-! ### Statements with a body -/

section Blocks

variable {parts : List (Part Store)}

/-- Those of the parts that are statements are lowered properly. -/
def ProperParts (parts : List (Part Store)) : Prop :=
  ∀ part ∈ parts, ∀ k ∈ Grammar.statementKinds, part.tree.tag = k.tag → ∀ p, (part.lower p).Proper

theorem lowerAll_proper (hparts : ∀ part ∈ parts, (part.lower p).Proper) : (Part.lowerAll parts p).Proper := by
  induction parts with
  | nil => exact proper_pure ()
  | cons part rest ih =>
    refine (hparts part (by simp)).bind fun _ => ?_
    exact ih fun other hother => hparts other (List.mem_cons_of_mem _ hother)

theorem lowerTagged_proper (hparts : ProperParts parts) (k : NodeKind) (hk : k ∈ Grammar.statementKinds) :
    (Part.lowerTagged parts k.tag p).Proper := by
  refine lowerAll_proper fun part hpart => ?_
  obtain ⟨hmem, htag⟩ := List.mem_filter.mp hpart
  exact hparts part hmem k hk (beq_iff_eq.mp htag) p

theorem lowerFirst_proper (hparts : ProperParts parts) (k : NodeKind) (hk : k ∈ Grammar.statementKinds) :
    (Part.lowerFirst parts k.tag p).Proper := by
  unfold Part.lowerFirst
  split
  · exact proper_pure ()
  · rename_i part hfind
    have htag : part.tree.tag = k.tag := by simpa using List.find?_some hfind
    exact hparts part (List.mem_of_find?_eq_some hfind) k hk htag p

theorem lowerBody_proper (hparts : ProperParts parts) (header : Address) (output : Option (List String)) :
    (Part.lowerBody parts header output).Proper := by
  unfold Part.lowerBody
  split
  · exact proper_pure ()
  · rename_i body hfind
    have htag : body.tree.tag = "nested_block" := by simpa using List.find?_some hfind
    refine (proper_modify _).bind fun _ => ?_
    refine (hparts body (List.mem_of_find?_eq_some hfind) .nestedBlock (by decide) htag _).bind fun _ => ?_
    exact proper_modify _

/-- A statement is a node itself or a block that has it as a part. -/
theorem proper_self_or_child {α : Type} {k k' : NodeKind} {f : Tree → LowerM Store α} (h : t.Is k ∨ t.Is k')
    (hne : k' ≠ k) (hr : (Grammar.rule k').requires (Symbol.isNodeOf [k]) = true)
    (hf : ∀ u : Tree, u.Is k → (f u).Proper) :
    (if t.tag = k.tag then pure t >>= f else liftM (t.child k.tag) >>= f).Proper := by
  rcases h with h | h
  · rw [if_pos h.tag]
    exact hf t h
  · obtain ⟨u, hchild, hu⟩ := h.child k hr
    have htag : t.tag ≠ k.tag := fun htag => hne (NodeKind.tag_injective (h.tag.symm.trans htag))
    rw [if_neg htag]
    exact proper_lookUp hchild (hf u hu)

theorem lowerService_proper (hparts : ProperParts parts) (h : t.Is .service ∨ t.Is .serviceBlock) :
    (lowerService t parts p).Proper := by
  refine proper_self_or_child (k := .service) h (by decide) rfl fun service hservice => ?_
  refine (targetsValue_proper hservice).bind fun b => ?_
  cases b with
  | true =>
    refine (valueCommand_proper hservice .expression).bind fun _ => proper_get.bind fun _ => ?_
    exact lowerBody_proper hparts _ _
  | false =>
    obtain ⟨request, hrequest⟩ := Tree.readRequest_succeeds hservice
    obtain ⟨ln, hline⟩ := hservice.line (by decide)
    refine proper_read hrequest (proper_lookUp hline ((proper_invoke _ _ _ _ _).bind fun _ => ?_))
    exact lowerBody_proper hparts _ _

theorem lowerMutation_proper (hparts : ProperParts parts) (h : t.Is .mutation ∨ t.Is .mutationBlock) :
    (lowerMutation t parts p).Proper := by
  refine proper_self_or_child (k := .mutation) h (by decide) rfl fun mutated hmutated => ?_
  exact (mutationLine_proper hmutated).bind fun _ => lowerBody_proper hparts _ _

theorem lowerWhen_proper (hparts : ProperParts parts) (h : t.Is .whenBlock) : (lowerWhen t parts p).Proper := by
  obtain ⟨ln, hline⟩ := h.line (by decide)
  refine proper_lookUp hline ?_
  split
  · rename_i service hservice
    obtain ⟨request, hrequest⟩ := Tree.readRequest_succeeds (h.conforms.child? hservice .service rfl)
    refine proper_read hrequest ((proper_invoke _ _ _ _ _).bind fun _ => ?_)
    exact lowerBody_proper hparts _ _
  · rename_i hnone
    obtain ⟨path, hchild, hpath⟩ := h.listener_path hnone
    obtain ⟨handle, hhandle⟩ := Tree.readPath_succeeds hpath
    refine proper_lookUp hchild (proper_read hhandle ((proper_append _ _ _).bind fun _ => ?_))
    exact lowerBody_proper hparts _ _

theorem lowerIf_proper (hparts : ProperParts parts) (h : t.Is .ifBlock) : (lowerIf t parts p).Proper := by
  obtain ⟨statement, hchild, hstatement⟩ := h.child .ifStatement rfl
  obtain ⟨operand, hoperand, hkind⟩ := hstatement.innerOperand rfl
  obtain ⟨ln, hline⟩ := hstatement.line (by decide)
  refine proper_lookUp hchild ((headerOperand_proper hoperand hkind).bind fun _ => proper_lookUp hline ?_)
  refine (proper_append _ _ _).bind fun _ => (lowerBody_proper hparts _ _).bind fun _ => ?_
  exact (lowerTagged_proper hparts .elseIfBlock (by decide)).bind fun _ =>
    lowerFirst_proper hparts .elseBlock (by decide)

theorem lowerElseIf_proper (hparts : ProperParts parts) (h : t.Is .elseIfBlock) : (lowerElseIf t parts p).Proper := by
  obtain ⟨statement, hchild, hstatement⟩ := h.child .elseIfStatement rfl
  obtain ⟨operand, hoperand, hkind⟩ := hstatement.innerOperand rfl
  obtain ⟨ln, hline⟩ := hstatement.line (by decide)
  refine proper_lookUp hchild ((headerOperand_proper hoperand hkind).bind fun _ => proper_lookUp hline ?_)
  refine (proper_append _ _ _).bind fun _ => (proper_modify _).bind fun _ => ?_
  exact lowerBody_proper hparts _ _

theorem lowerLastBranch_proper (hparts : ProperParts parts) (method : Method) (hline : ∃ ln, t.line = .ok ln) :
    (lowerLastBranch method t parts p).Proper := by
  obtain ⟨ln, hline⟩ := hline
  refine proper_lookUp hline ((proper_append _ _ _).bind fun _ => (proper_modify _).bind fun _ => ?_)
  exact lowerBody_proper hparts _ _

theorem lowerForeach_proper (hparts : ProperParts parts) (h : t.Is .foreachBlock) : (lowerForeach t parts p).Proper := by
  obtain ⟨statement, hchild, hstatement⟩ := h.child .foreachStatement rfl
  obtain ⟨ln, hline⟩ := hstatement.line (by decide)
  refine proper_lookUp hchild ?_
  obtain ⟨subject, hsubject, value, hvalue⟩ := hstatement.loop_subject
  rw [hsubject]
  refine proper_read hvalue (proper_lookUp hline ((proper_append _ _ _).bind fun _ => ?_))
  exact lowerBody_proper hparts _ _

theorem lowerWhile_proper (hparts : ProperParts parts) (h : t.Is .whileBlock) : (lowerWhile t parts p).Proper := by
  obtain ⟨statement, hchild, hstatement⟩ := h.child .whileStatement rfl
  obtain ⟨operand, hoperand, hkind⟩ := hstatement.innerOperand rfl
  obtain ⟨ln, hline⟩ := hstatement.line (by decide)
  refine proper_lookUp hchild (proper_lookUp hline ((headerOperand_proper hoperand hkind).bind fun o => ?_))
  refine (proper_append _ _ _).bind fun _ => (lowerBody_proper hparts _ _).bind fun _ => ?_
  cases o.line with
  | none => exact proper_pure ()
  | some computed => exact (proper_modifyGet _).bind fun _ => proper_pure ()

theorem lowerTry_proper (hparts : ProperParts parts) (h : t.Is .tryBlock) : (lowerTry t parts p).Proper := by
  obtain ⟨ln, hline⟩ := h.line (by decide)
  refine proper_lookUp hline ((proper_append _ _ _).bind fun _ => (lowerBody_proper hparts _ _).bind fun _ => ?_)
  exact (lowerFirst_proper hparts .catchBlock (by decide)).bind fun _ =>
    lowerFirst_proper hparts .finallyBlock (by decide)

theorem lowerCatch_proper (hparts : ProperParts parts) (h : t.Is .catchBlock) : (lowerCatch t parts p).Proper := by
  obtain ⟨statement, hchild, hstatement⟩ := h.child .catchStatement rfl
  obtain ⟨ln, hline⟩ := hstatement.line (by decide)
  refine proper_lookUp hchild (proper_lookUp hline ((proper_append _ _ _).bind fun _ => ?_))
  exact (proper_modify _).bind fun _ => lowerBody_proper hparts _ _

theorem lowerFunction_proper (hparts : ProperParts parts) (h : t.Is .functionBlock) :
    (lowerFunction t parts p).Proper := by
  obtain ⟨statement, hchild, hstatement⟩ := h.child .functionStatement rfl
  obtain ⟨name, hname⟩ := hstatement.nameToken (by decide)
  obtain ⟨parameters, hparameters⟩ := Tree.readParameters_succeeds hstatement.conforms
  obtain ⟨returns, hreturns⟩ := Tree.readReturns_succeeds hstatement.conforms
  obtain ⟨ln, hline⟩ := hstatement.line (by decide)
  refine proper_lookUp hchild (proper_read hname (proper_read hparameters (proper_lookUp hreturns ?_)))
  refine proper_lookUp hline ((proper_append _ _ _).bind fun header => ?_)
  have hrest : Proper (lowerDeclared parts statement name.value header parameters) := by
    refine (proper_modifyGet _).bind fun previous => ?_
    cases previous with
    | none => exact lowerBody_proper hparts _ _
    | some previous =>
      -- That the name is taken is a problem of the script.
      exact fun s => Ends.bind (ends_throw rfl)
  cases returns with
  | none => exact hrest
  | some names => exact (proper_modify _).bind fun _ => hrest

end Blocks

end LowerM

/-! ### Whole trees -/

open LowerM

/-- The kind of statement that a node is. -/
def NodeKind.statement? : NodeKind → Option Statement
  | .start | .block | .rules | .nestedBlock => some .container
  | .assignment => some .assignment
  | .absoluteExpression => some .absoluteExpression
  | .service | .serviceBlock => some .service
  | .mutation | .mutationBlock => some .mutation
  | .indentedChain => some .chain
  | .arguments => some .arguments
  | .callExpression => some .call
  | .whenBlock => some .when
  | .ifBlock => some .if_
  | .elseIfBlock => some .elseIf
  | .elseBlock => some .else_
  | .foreachBlock => some .foreach
  | .whileBlock => some .while_
  | .tryBlock => some .try_
  | .catchBlock => some .catch_
  | .finallyBlock => some .finally_
  | .functionBlock => some .function
  | .returnStatement => some .return_
  | .breakStatement => some .break_
  | .throwStatement => some .throw
  | .imports => some .import_
  | _ => none

theorem ofTag?_tag : ∀ k ∈ Grammar.statementKinds, Statement.ofTag? k.tag = k.statement? := by
  decide +kernel

section Trees

variable {t : Tree} {k : NodeKind} {parts : List (Part Store)}

theorem lowerContainer_proper {p : Option Address} (h : t.Is k) (htrees : ∀ part ∈ parts, part.tree ∈ t.subtrees)
    (hparts : ProperParts parts) (hr : (Grammar.rule k).holdsOnly
      (fun s => s.isToken || s.isNodeOf Grammar.statementKinds) = true) :
    (Part.lowerAll parts p).Proper := by
  refine lowerAll_proper fun part hpart => ?_
  obtain ⟨k', hk', hkind⟩ := h.subtree Grammar.statementKinds (htrees part hpart) hr
  exact hparts part hpart k' hk' hkind.tag p

theorem statement_proper (hk : k ∈ Grammar.statementKinds) (h : t.Is k)
    (htrees : ∀ part ∈ parts, part.tree ∈ t.subtrees) (hparts : ProperParts parts) (p : Option Address) :
    (statement t parts p).Proper := by
  unfold statement
  rw [h.tag, ofTag?_tag k hk]
  cases k with
  | start | block | rules | nestedBlock => exact lowerContainer_proper h htrees hparts rfl
  | assignment => exact lowerAssignment_proper h
  | absoluteExpression => exact lowerExpression_proper h
  | service => exact lowerService_proper hparts (Or.inl h)
  | serviceBlock => exact lowerService_proper hparts (Or.inr h)
  | mutation => exact lowerMutation_proper hparts (Or.inl h)
  | mutationBlock => exact lowerMutation_proper hparts (Or.inr h)
  | indentedChain => exact continueMutation_proper h.conforms
  | arguments => exact continueArguments_proper h.conforms
  | callExpression => exact (callLine_proper h).map
  | whenBlock => exact lowerWhen_proper hparts h
  | ifBlock => exact lowerIf_proper hparts h
  | elseIfBlock => exact lowerElseIf_proper hparts h
  | elseBlock => exact lowerLastBranch_proper hparts .else_ (h.line (by decide))
  | foreachBlock => exact lowerForeach_proper hparts h
  | whileBlock => exact lowerWhile_proper hparts h
  | tryBlock => exact lowerTry_proper hparts h
  | catchBlock => exact lowerCatch_proper hparts h
  | finallyBlock => exact lowerLastBranch_proper hparts .finally_ (h.line (by decide))
  | functionBlock => exact lowerFunction_proper hparts h
  | returnStatement => exact lowerReturn_proper h
  | breakStatement => exact lowerBreak_proper h
  | throwStatement => exact lowerThrow_proper h
  | imports => exact lowerImport_proper h
  | _ => exact absurd hk (by decide)

theorem Tree.lower_proper (hk : k ∈ Grammar.statementKinds) (h : t.Is k) (p : Option Address) : (t.lower p).Proper := by
  induction t using Tree.subtreeInduction generalizing k p with
  | step t ih =>
    rw [Tree.lower_eq]
    refine statement_proper hk h ?_ ?_ p
    · intro part hpart
      obtain ⟨c, hc, rfl⟩ := List.mem_map.mp hpart
      exact hc
    · -- Not every part is a statement: a path, say, is read and never lowered.
      intro part hpart k' hk' htag q
      obtain ⟨c, hc, rfl⟩ := List.mem_map.mp hpart
      exact ih c hc hk' ⟨htag, h.conforms.subtree hc⟩ q

/-- A program that conforms to the grammar is compiled, or has a problem that lies in the script. -/
theorem compile_progress (hk : k ∈ Grammar.statementKinds) (h : t.Is k) :
    (∃ m, compile t = .ok m) ∨
      ∃ d, compile t = .error d ∧ d.code ≠ .malformedTree ∧ d.code ≠ .unknownStatement := by
  have hproper := Tree.lower_proper hk h none {}
  unfold compile
  cases hl : t.lower none ({} : Store) with
  | ok x s => exact Or.inl ⟨_, rfl⟩
  | error d s =>
    have hd := hproper.of_error hl
    refine Or.inr ⟨d, rfl, ?_, ?_⟩ <;> intro hcode <;> simp [Diagnostic.isInternal, hcode, Code.isInternal] at hd

end Trees

/-- A script with values, a listener, a branch, a mutation and a `break` that is out of place. -/
def Sample.misplaced : Tree :=
  Shape.script [
    Shape.assignment "a.b" (Shape.expression [
      Shape.values (Shape.list [Shape.values (Shape.int 1 1)]), Shape.operator "+" 1, Shape.path "c" 1]) 1,
    Shape.whenBlock (Shape.service "clock" (some "tick") [Shape.argument (some "every") (Shape.path "a" 2) 2] ["e"] 2)
      [] [Shape.ifBlock (Shape.expression [Shape.path "e" 3])
        [Shape.mutationBlock (Shape.mutation (Shape.path "a" 4) (Shape.mutationFragment "trim" [] 4) []) none] 3
        [Shape.elseBlock [Shape.throwStatement (some (Shape.path "e" 5)) 5] 5]] 2,
    Shape.breakStatement 6]

theorem compile_progress_misplaced :
    Sample.misplaced.Is .start ∧ ∃ d, compile Sample.misplaced = .error d ∧ d.code = .breakOutside ∧
      d.code ≠ .malformedTree ∧ d.code ≠ .unknownStatement := by
  have his : Sample.misplaced.Is .start := ⟨rfl, by decide +kernel⟩
  have hcode : (match compile Sample.misplaced with
      | .ok _ => none
      | .error d => some d.code) = some .breakOutside := by decide +kernel
  refine ⟨his, ?_⟩
  rcases compile_progress (by decide) his with ⟨m, hm⟩ | ⟨d, hd, hscript⟩
  · rw [hm] at hcode
    cases hcode
  · rw [hd] at hcode
    exact ⟨d, hd, Option.some.inj hcode, hscript⟩

end Flowline
