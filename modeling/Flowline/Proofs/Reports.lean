import Flowline.Proofs.Lowers
import Flowline.Proofs.Grammar
import Flowline.Tree.Shape

/-! What a problem tells. Its details are those that its code lists, a problem in reading a value lies with the
    tree, and a problem of the script is reported at a token of the program: the node that it is about holds
    a token, and the first one tells where it stands. -/

namespace Flowline

/-! ### Tokens -/

namespace Tree

mutual

/-- The tokens at and below a node, in document order. -/
def words : Tree → List Token
  | ⟨_, children⟩ => wordsOfChildren children

/-- The tokens at and below these children, in document order. -/
def wordsOfChildren : List Child → List Token
  | [] => []
  | .token word :: rest => word :: wordsOfChildren rest
  | .tree t :: rest => t.words ++ wordsOfChildren rest

end

mutual

theorem position?_eq_words : ∀ t : Tree, t.position? = t.words.head?.map (·.position)
  | ⟨_, children⟩ => positionOfChildren?_eq_words children

theorem positionOfChildren?_eq_words : ∀ children : List Child,
    positionOfChildren? children = (wordsOfChildren children).head?.map (·.position)
  | [] => rfl
  | .token _ :: _ => rfl
  | .tree t :: rest => by
    rw [positionOfChildren?, wordsOfChildren, position?_eq_words t, positionOfChildren?_eq_words rest]
    cases t.words <;> rfl

end

variable {t u root : Tree} {word : Token}

theorem mem_words : word ∈ t.words ↔ word ∈ t.tokens ∨ ∃ c ∈ t.subtrees, word ∈ c.words := by
  obtain ⟨tag, children⟩ := t
  simp only [words, tokens, subtrees]
  induction children with
  | nil => simp [wordsOfChildren]
  | cons c rest ih =>
    cases c with
    | token => simp [wordsOfChildren, Child.token?, Child.tree?, ih, or_assoc]
    | tree c => simp [wordsOfChildren, Child.token?, Child.tree?, ih, or_left_comm]

theorem words_of_descendant (hu : u ∈ t.descendants) (hw : word ∈ u.words) : word ∈ t.words := by
  induction t using subtreeInduction with
  | step t ih =>
    rcases mem_descendants.mp hu with rfl | ⟨c, hc, hu⟩
    · exact hw
    · exact mem_words.mpr (Or.inr ⟨c, hc, ih c hc hu⟩)

theorem words_ne_nil_of_mem_tokens (h : word ∈ t.tokens) : t.words ≠ [] :=
  List.ne_nil_of_mem (mem_words.mpr (Or.inl h))

theorem mem_tokens_of_nameToken (h : t.nameToken = .ok word) : word ∈ t.tokens := by
  unfold nameToken at h
  split at h
  · rename_i name hname
    rw [← Except.ok.inj h]
    exact List.mem_of_find?_eq_some hname
  · cases h

/-- Every statement of the program and the path of every call in it holds a token. A container is no statement by
    itself: a body may be empty. -/
structure Worded (root : Tree) : Prop where
  statements : ∀ u ∈ root.descendants, ∀ kind ∈ Statement.ofTag? u.tag, kind ≠ .container → u.words ≠ []
  calls : ∀ u ∈ root.descendants, u.tag = "call_expression" → ∀ path ∈ u.child? "path", path.words ≠ []

instance (root : Tree) : Decidable root.Worded :=
  decidable_of_iff (_ ∧ _) ⟨fun h => ⟨h.1, h.2⟩, fun h => ⟨h.statements, h.calls⟩⟩

theorem subtree_descendant (ht : t ∈ root.descendants) (hu : u ∈ t.subtrees) : u ∈ root.descendants :=
  descendants_trans ht (mem_descendants.mpr (Or.inr ⟨u, hu, u.self_mem_descendants⟩))

theorem child_descendant {tag : String} (ht : t ∈ root.descendants) (hu : t.child tag = .ok u) :
    u ∈ root.descendants :=
  subtree_descendant ht (child?_eq_some (child?_of_child hu)).1

theorem child_tag {tag : String} (hu : t.child tag = .ok u) : u.tag = tag :=
  (child?_eq_some (child?_of_child hu)).2

theorem leadingTree_subtree (h : t.leadingTree = .ok u) : u ∈ t.subtrees := by
  unfold leadingTree at h
  split at h
  · rename_i c hc
    obtain rfl := Except.ok.inj h
    obtain ⟨child, hchild, htree⟩ := Option.bind_eq_some_iff.mp hc
    exact List.mem_filterMap.mpr ⟨child, List.mem_of_getElem? hchild, htree⟩
  · cases h

theorem innerOperand_descendant (ht : t ∈ root.descendants) (h : t.innerOperand = .ok u) : u ∈ root.descendants := by
  unfold innerOperand at h
  cases hbase : t.child? "base_expression" with
  | none =>
    rw [hbase] at h
    exact subtree_descendant ht (leadingTree_subtree h)
  | some base =>
    rw [hbase] at h
    exact subtree_descendant (subtree_descendant ht (child?_eq_some hbase).1) (leadingTree_subtree h)

end Tree

theorem OperandKind.tag_of_ofTag? {tag : String} {kind : OperandKind} (h : OperandKind.ofTag? tag = some kind) :
    (kind = .service → tag = "service") ∧ (kind = .call → tag = "call_expression") := by
  unfold OperandKind.ofTag? at h
  split at h <;> cases h <;> simp

theorem Statement.tag_of_call {tag : String} (h : Statement.ofTag? tag = some .call) : tag = "call_expression" := by
  unfold Statement.ofTag? at h
  split at h <;> first | rfl | cases h

/-! ### Located problems -/

/-- The problem lies with the tree, or is reported at a token of the program. -/
def Diagnostic.Located (root : Tree) (d : Diagnostic) : Prop :=
  d.isInternal = true ∨ ∃ word ∈ root.words, d.position = some word.position

section Located

variable {root t : Tree} {d : Diagnostic}

theorem Malformed.located (e : Malformed) (root : Tree) : e.diagnostic.Located root := Or.inl rfl

/-- A problem that is reported at a node with a token is reported at the first token of the node. -/
theorem Diagnostic.located_at (ht : t ∈ root.descendants) (hw : t.words ≠ []) (hd : d.position = t.position?) :
    d.Located root := by
  obtain ⟨word, rest, hwords⟩ := List.exists_cons_of_ne_nil hw
  rw [Tree.position?_eq_words, hwords] at hd
  exact Or.inr ⟨word, Tree.words_of_descendant ht (by simp [hwords]), hd⟩

theorem Tree.ensure_located {condition : Bool} {code : Code} {context : List (String × String)}
    (ht : t ∈ root.descendants) (hw : t.words ≠ []) (h : t.ensure condition code context = .error d) :
    d.Located root :=
  Diagnostic.located_at ht hw (by rw [ensure_error h])

/-- A name that is refused is a token of the path. -/
theorem Tree.checkNames_located (ht : t ∈ root.descendants) (h : t.checkNames = .error d) : d.Located root := by
  have hwords : t.words ≠ [] := by
    obtain ⟨name, hname, -⟩ := forM_error h
    obtain ⟨child, hchild, htoken⟩ := List.mem_filterMap.mp hname
    cases child with
    | token word => exact words_ne_nil_of_mem_tokens (List.mem_filterMap.mpr ⟨_, hchild, rfl⟩)
    | tree fragment =>
      obtain ⟨word, hword, -⟩ := Option.map_eq_some_iff.mp htoken
      obtain ⟨hat, -⟩ := Option.filter_eq_some_iff.mp hword
      have hat : fragment.tokenAt? 0 = some word := hat
      have htoken : fragment.tokenAt 0 = .ok word := by rw [tokenAt, hat]
      have hfragment := mem_tokens_of_tokenAt htoken
      exact List.ne_nil_of_mem
        (mem_words.mpr (Or.inr ⟨fragment, mem_subtrees.mpr hchild, mem_words.mpr (Or.inl hfragment)⟩))
  obtain ⟨name, rfl | rfl⟩ := checkNames_error h <;> exact Diagnostic.located_at ht hwords rfl

end Located

namespace LowerM

variable {α β : Type} {root : Tree} {m : LowerM Store α} {f : α → LowerM Store β}

/-- Whatever the store is, a problem that the action reports is located in the program. -/
def Reports (root : Tree) (m : LowerM Store α) : Prop :=
  ∀ s, m.Ends s (fun _ _ => True) fun d _ => d.Located root

theorem Reports.bind (hm : m.Reports root) (hf : ∀ a, (f a).Reports root) : (m >>= f).Reports root := fun s =>
  Ends.bind ((hm s).mono (fun a t _ => hf a t) fun _ _ h => h)

theorem reports_pure (a : α) : (pure a : LowerM Store α).Reports root := fun _ => ends_pure trivial

theorem reports_get : (get : LowerM Store Store).Reports root := fun _ => ends_get trivial

theorem reports_modify (g : Store → Store) : (modify g : LowerM Store Unit).Reports root := fun _ => ends_modify trivial

theorem reports_modifyGet (g : Store → α × Store) : (modifyGet g : LowerM Store α).Reports root := fun _ =>
  ends_modifyGet trivial

theorem reports_append (method : Method) (ln : UInt32) (d : Draft) : (append method ln d).Reports root := fun _ =>
  ends_append trivial

/-- What cannot be read lies with the tree. -/
theorem Reports.read {x : Except Malformed α} (hf : ∀ a, x = .ok a → (f a).Reports root) :
    (liftM x >>= f).Reports root := fun s =>
  Ends.bind (ends_liftM_malformed (fun a ha => hf a ha s) fun e => e.located root)

theorem Reports.lookUp {x : Except Missing α} (hf : ∀ a, x = .ok a → (f a).Reports root) :
    (liftM x >>= f).Reports root := fun s =>
  Ends.bind (ends_liftM_missing (fun a ha => hf a ha s) fun e => e.located root)

theorem reports_ensure {t : Tree} (ht : t ∈ root.descendants) (hw : t.words ≠ []) (condition : Bool) (code : Code)
    (context : List (String × String)) : (liftM (t.ensure condition code context) : LowerM Store Unit).Reports root :=
  fun _ => ends_liftM_diagnostic (fun _ _ => trivial) fun _ hd => Tree.ensure_located ht hw hd

theorem reports_continueLast {place : Tree} (ht : place ∈ root.descendants) (hw : place.words ≠ [])
    (expected : Method) (code : Code) (more : List Value) :
    (continueLast place expected code more).Reports root :=
  (reports_modifyGet _).bind fun _ => reports_ensure ht hw _ _ _

theorem reports_invoke {place : Tree} (ht : place ∈ root.descendants) (hw : place.words ≠ [])
    (method : Store → Method) (ln : UInt32) (r : Request) (p : Option Address) :
    (invoke place fun s => s.invoke (method s) ln r p).Reports root := by
  intro s
  unfold invoke Store.invoke Ends
  by_cases hdot : Text.has r.name '.' = true
  · simp only [hdot, if_true]
    exact Diagnostic.located_at ht hw rfl
  · simp only [hdot, Bool.false_eq_true, if_false]

/-! ### Lines -/

section Lines

variable {t : Tree} {p : Option Address} (hroot : root.Worded) (ht : t ∈ root.descendants)

theorem targetsValue_reports (t : Tree) : (targetsValue t).Reports root :=
  .lookUp fun _ _ => .lookUp fun _ _ => reports_get.bind fun _ => reports_pure _

theorem valueCommand_reports (t : Tree) (bare : Method) : (valueCommand t bare p).Reports root :=
  .read fun _ _ => .lookUp fun _ _ => reports_append _ _ _

theorem mutationLine_reports (t : Tree) : (mutationLine t p).Reports root := by
  refine .read fun subject _ => .read fun value _ => .lookUp fun fragment _ => .read fun first _ => ?_
  exact .read fun chain _ => .lookUp fun ln _ => reports_append _ _ _

include hroot ht

theorem serviceLine_reports (htag : t.tag = "service") : (serviceLine t p).Reports root := by
  have hwords := hroot.statements t ht .service (by rw [htag]; rfl) (by decide)
  refine (targetsValue_reports t).bind fun b => ?_
  cases b with
  | true => exact valueCommand_reports t .set_
  | false => exact .lookUp fun ln _ => .read fun call _ => reports_invoke ht hwords _ _ _ _

/-- A function that cannot be called is reported at the call or at its path. -/
theorem callLine_reports (htag : t.tag = "call_expression") : (callLine t p).Reports root := by
  have hwords := hroot.statements t ht .call (by rw [htag]; rfl) (by decide)
  refine .lookUp fun path hpath => (reports_ensure ht hwords _ _ _).bind fun _ => ?_
  have hmem := Tree.child_descendant ht hpath
  have hnamed := hroot.calls t ht htag path (Tree.child?_of_child hpath)
  refine (reports_ensure hmem hnamed _ _ _).bind fun _ => reports_get.bind fun _ => ?_
  refine (reports_ensure hmem hnamed _ _ _).bind fun _ => .read fun arguments _ => ?_
  exact .lookUp fun ln _ => reports_append _ _ _

theorem operandLine_reports : (operandLine t p).Reports root := by
  unfold operandLine
  cases hkind : OperandKind.ofTag? t.tag with
  | none => exact fun _ => ends_throw (Malformed.located _ root)
  | some kind =>
    have htag := OperandKind.tag_of_ofTag? hkind
    cases kind with
    | expression => exact .read fun args _ => .lookUp fun ln _ => reports_append _ _ _
    | value => exact .read fun value _ => .lookUp fun ln _ => reports_append _ _ _
    | service => exact serviceLine_reports hroot ht (htag.1 rfl)
    | mutation => exact mutationLine_reports t
    | call => exact callLine_reports hroot ht (htag.2 rfl)

theorem headerOperand_reports : (headerOperand t p).Reports root := by
  refine .read fun operand hoperand => ?_
  have hmem := Tree.innerOperand_descendant ht hoperand
  have hcomputed : (computedOperand operand p).Reports root :=
    (operandLine_reports hroot hmem).bind fun _ => (reports_modify _).bind fun _ => reports_pure _
  split
  · exact .read fun args _ => reports_pure _
  · exact .read fun value _ => reports_pure _
  · exact hcomputed

end Lines

/-! ### Statements without a body -/

section Plain

variable {t : Tree} {p : Option Address}

theorem lowerExpression_reports (t : Tree) : (lowerExpression t p).Reports root := by
  refine .lookUp fun expression _ => .read fun args _ => .lookUp fun ln _ => ?_
  exact (reports_append _ _ _).bind fun _ => reports_pure _

theorem lowerThrow_reports (t : Tree) : (lowerThrow t p).Reports root :=
  .read fun _ _ => .lookUp fun _ _ => (reports_append _ _ _).bind fun _ => reports_pure _

theorem lowerImport_reports (t : Tree) : (lowerImport t).Reports root :=
  .lookUp fun _ _ => .lookUp fun _ _ => .read fun _ _ => reports_modify _

variable (ht : t ∈ root.descendants)

include ht

theorem continueMutation_reports (hw : t.words ≠ []) : (continueMutation t).Reports root :=
  .read fun _ _ => reports_continueLast ht hw _ _ _

theorem continueArguments_reports (hw : t.words ≠ []) : (continueArguments t).Reports root :=
  .read fun _ _ => reports_continueLast ht hw _ _ _

theorem lowerBreak_reports (hw : t.words ≠ []) : (lowerBreak t p).Reports root := by
  refine (reports_ensure ht hw _ _ _).bind fun _ => .lookUp fun ln _ => ?_
  exact (reports_append _ _ _).bind fun _ => reports_pure _

theorem lowerReturn_reports (hroot : root.Worded) (hw : t.words ≠ []) : (lowerReturn t p).Reports root := by
  refine (reports_ensure ht hw _ _ _).bind fun _ => ?_
  have hrest : ∀ args, Reports root (do
      let _ ← append .return_ (← t.line) { args, parent := p }) := fun args =>
    .lookUp fun ln _ => (reports_append _ _ _).bind fun _ => reports_pure _
  split
  · rename_i base hbase
    have hmem := Tree.subtree_descendant ht (Tree.child?_eq_some hbase).1
    exact (headerOperand_reports hroot hmem).bind fun _ => (reports_pure _).bind hrest
  · exact (reports_pure none).bind hrest

theorem lowerAssignment_reports (hroot : root.Worded) : (lowerAssignment t p).Reports root := by
  refine .lookUp fun target htarget => Reports.bind ?_ fun _ => .read fun path _ => .lookUp fun fragment hfragment => ?_
  · exact fun _ => ends_liftM_diagnostic (fun _ _ => trivial) fun _ hd =>
      Tree.checkNames_located (Tree.child_descendant ht htarget) hd
  · refine .read fun operand hoperand => ?_
    have hmem := Tree.innerOperand_descendant (Tree.child_descendant ht hfragment) hoperand
    exact (operandLine_reports hroot hmem).bind fun _ => reports_modify _

end Plain

/-! ### Statements with a body -/

section Blocks

variable {t : Tree} {p : Option Address} {parts : List (Part Store)}
  (hparts : ∀ part ∈ parts, ∀ q, (part.lower q).Reports root)

include hparts

theorem lowerAll_reports : (Part.lowerAll parts p).Reports root := by
  induction parts with
  | nil => exact reports_pure ()
  | cons part rest ih =>
    refine (hparts part (by simp) p).bind fun _ => ?_
    exact ih fun other hother => hparts other (List.mem_cons_of_mem _ hother)

theorem lowerTagged_reports (tag : String) : (Part.lowerTagged parts tag p).Reports root :=
  lowerAll_reports fun part hpart => hparts part (List.mem_filter.mp hpart).1

theorem lowerFirst_reports (tag : String) : (Part.lowerFirst parts tag p).Reports root := by
  unfold Part.lowerFirst
  split
  · exact reports_pure ()
  · rename_i part hfind
    exact hparts part (List.mem_of_find?_eq_some hfind) p

theorem lowerBody_reports (header : Address) (output : Option (List String)) :
    (Part.lowerBody parts header output).Reports root := by
  unfold Part.lowerBody
  split
  · exact reports_pure ()
  · rename_i body hfind
    refine (reports_modify _).bind fun _ => ?_
    exact (hparts body (List.mem_of_find?_eq_some hfind) _).bind fun _ => reports_modify _

theorem lowerLastBranch_reports (method : Method) (t : Tree) : (lowerLastBranch method t parts p).Reports root := by
  refine .lookUp fun ln _ => (reports_append _ _ _).bind fun _ => (reports_modify _).bind fun _ => ?_
  exact lowerBody_reports hparts _ _

theorem lowerForeach_reports (t : Tree) : (lowerForeach t parts p).Reports root := by
  refine .lookUp fun st _ => ?_
  split
  · refine (reports_pure _).bind fun subject => .read fun value _ => .lookUp fun ln _ => ?_
    exact (reports_append _ _ _).bind fun _ => lowerBody_reports hparts _ _
  · exact fun _ => Ends.bind (ends_throw (Malformed.located _ root))

theorem lowerTry_reports (t : Tree) : (lowerTry t parts p).Reports root := by
  refine .lookUp fun ln _ => (reports_append _ _ _).bind fun _ => (lowerBody_reports hparts _ _).bind fun _ => ?_
  exact (lowerFirst_reports hparts _).bind fun _ => lowerFirst_reports hparts _

theorem lowerCatch_reports (t : Tree) : (lowerCatch t parts p).Reports root := by
  refine .lookUp fun st _ => .lookUp fun ln _ => (reports_append _ _ _).bind fun _ => ?_
  exact (reports_modify _).bind fun _ => lowerBody_reports hparts _ _

theorem lowerMutation_reports (t : Tree) : (lowerMutation t parts p).Reports root := by
  have hrest : ∀ mutated : Tree, Reports root (do
      let header ← mutationLine mutated p
      Part.lowerBody parts header none) := fun mutated =>
    (mutationLine_reports mutated).bind fun _ => lowerBody_reports hparts _ _
  unfold lowerMutation
  split
  · exact (reports_pure t).bind hrest
  · exact .lookUp fun mutated _ => hrest mutated

variable (ht : t ∈ root.descendants)

include ht

/-- A second declaration is reported where it is written: it has a name. -/
theorem lowerFunction_reports : (lowerFunction t parts p).Reports root := by
  refine .lookUp fun st hst => .read fun name hname => .read fun parameters _ => .lookUp fun returns _ => ?_
  refine .lookUp fun ln _ => (reports_append _ _ _).bind fun header => ?_
  have hrest : Reports root (lowerDeclared parts st name.value header parameters) := by
    refine (reports_modifyGet _).bind fun previous => ?_
    cases previous with
    | none => exact lowerBody_reports hparts _ _
    | some previous =>
      have hwords := Tree.words_ne_nil_of_mem_tokens (Tree.mem_tokens_of_nameToken hname)
      exact fun _ => Ends.bind (ends_throw (Diagnostic.located_at (Tree.child_descendant ht hst) hwords rfl))
  cases returns with
  | none => exact hrest
  | some names => exact (reports_modify _).bind fun _ => hrest

variable (hroot : root.Worded)

include hroot

theorem lowerService_reports : (lowerService t parts p).Reports root := by
  have hrest : ∀ service ∈ root.descendants, service.tag = "service" → Reports root (do
      if ← targetsValue service then do
        let header ← valueCommand service .expression p
        let output := ((← get).line? header).bind (·.output)
        Part.lowerBody parts header output
      else do
        let call ← service.readRequest
        let line ← service.line
        let header ← invoke service (·.execute line call p)
        Part.lowerBody parts header call.output) := by
    intro service hmem htag
    have hwords := hroot.statements service hmem .service (by rw [htag]; rfl) (by decide)
    refine (targetsValue_reports service).bind fun b => ?_
    cases b with
    | true =>
      refine (valueCommand_reports service .expression).bind fun _ => reports_get.bind fun _ => ?_
      exact lowerBody_reports hparts _ _
    | false =>
      refine .read fun call _ => .lookUp fun ln _ => (reports_invoke hmem hwords _ _ _ _).bind fun _ => ?_
      exact lowerBody_reports hparts _ _
  unfold lowerService
  split
  · rename_i htag
    exact hrest t ht htag
  · exact .lookUp fun service hservice => hrest service (Tree.child_descendant ht hservice) (Tree.child_tag hservice)

theorem lowerWhen_reports : (lowerWhen t parts p).Reports root := by
  refine .lookUp fun ln _ => ?_
  split
  · rename_i service hservice
    obtain ⟨hmem, htag⟩ := Tree.child?_eq_some hservice
    have hmem := Tree.subtree_descendant ht hmem
    have hwords := hroot.statements service hmem .service (by rw [htag]; rfl) (by decide)
    refine .read fun call _ => (reports_invoke hmem hwords _ _ _ _).bind fun _ => ?_
    exact lowerBody_reports hparts _ _
  · refine .lookUp fun path _ => .read fun handle _ => (reports_append _ _ _).bind fun _ => ?_
    exact lowerBody_reports hparts _ _

theorem lowerIf_reports : (lowerIf t parts p).Reports root := by
  refine .lookUp fun st hst => (headerOperand_reports hroot (Tree.child_descendant ht hst)).bind fun _ => ?_
  refine .lookUp fun ln _ => (reports_append _ _ _).bind fun _ => (lowerBody_reports hparts _ _).bind fun _ => ?_
  exact (lowerTagged_reports hparts _).bind fun _ => lowerFirst_reports hparts _

theorem lowerElseIf_reports : (lowerElseIf t parts p).Reports root := by
  refine .lookUp fun st hst => (headerOperand_reports hroot (Tree.child_descendant ht hst)).bind fun _ => ?_
  refine .lookUp fun ln _ => (reports_append _ _ _).bind fun _ => (reports_modify _).bind fun _ => ?_
  exact lowerBody_reports hparts _ _

theorem lowerWhile_reports : (lowerWhile t parts p).Reports root := by
  refine .lookUp fun st hst => .lookUp fun ln _ => ?_
  refine (headerOperand_reports hroot (Tree.child_descendant ht hst)).bind fun o => ?_
  refine (reports_append _ _ _).bind fun _ => (lowerBody_reports hparts _ _).bind fun _ => ?_
  cases o.line with
  | none => exact reports_pure ()
  | some computed => exact (reports_modifyGet _).bind fun _ => reports_pure ()

end Blocks

end LowerM

/-! ### Whole trees -/

section Trees

open LowerM

variable {root t : Tree} {p : Option Address} {parts : List (Part Store)}

theorem statement_reports (hroot : root.Worded) (ht : t ∈ root.descendants)
    (hparts : ∀ part ∈ parts, ∀ q, (part.lower q).Reports root) : (statement t parts p).Reports root := by
  unfold statement
  cases hkind : Statement.ofTag? t.tag with
  | none => exact fun _ => ends_throw (Or.inl rfl)
  | some kind =>
    have hwords : kind ≠ .container → t.words ≠ [] := hroot.statements t ht kind hkind
    cases kind with
    | container => exact lowerAll_reports hparts
    | assignment => exact lowerAssignment_reports ht hroot
    | absoluteExpression => exact lowerExpression_reports t
    | service => exact lowerService_reports hparts ht hroot
    | mutation => exact lowerMutation_reports hparts t
    | chain => exact continueMutation_reports ht (hwords (by decide))
    | arguments => exact continueArguments_reports ht (hwords (by decide))
    | call =>
      have htag := Statement.tag_of_call hkind
      exact (callLine_reports hroot ht htag).bind fun _ => reports_pure _
    | when => exact lowerWhen_reports hparts ht hroot
    | if_ => exact lowerIf_reports hparts ht hroot
    | elseIf => exact lowerElseIf_reports hparts ht hroot
    | else_ => exact lowerLastBranch_reports hparts .else_ t
    | foreach => exact lowerForeach_reports hparts t
    | while_ => exact lowerWhile_reports hparts ht hroot
    | try_ => exact lowerTry_reports hparts t
    | catch_ => exact lowerCatch_reports hparts t
    | finally_ => exact lowerLastBranch_reports hparts .finally_ t
    | function => exact lowerFunction_reports hparts ht
    | return_ => exact lowerReturn_reports ht hroot (hwords (by decide))
    | break_ => exact lowerBreak_reports ht (hwords (by decide))
    | throw => exact lowerThrow_reports t
    | import_ => exact lowerImport_reports t

theorem Tree.lower_reports (hroot : root.Worded) (ht : t ∈ root.descendants) (p : Option Address) :
    (t.lower p).Reports root := by
  induction t using Tree.subtreeInduction generalizing p with
  | step t ih =>
    rw [Tree.lower_eq]
    refine statement_reports hroot ht fun part hpart q => ?_
    obtain ⟨c, hc, rfl⟩ := List.mem_map.mp hpart
    exact ih c hc (Tree.subtree_descendant ht hc) q

end Trees

/-! ### Problems of a program -/

/-- The problem that a failed reading of a value is reported as. -/
def Malformed.problem? {α : Type} (x : Except Malformed α) : Option Diagnostic :=
  match (liftM x : Except Diagnostic α) with
  | .ok _ => none
  | .error d => some d

/-- The readers of values and of parts of them. -/
inductive Reader where
  | segments | path | mutation | number | boolean | string | list | dict | type | call | literal | value | entity
  | argument | arguments | parameter | parameters | conjuncts | expression

/-- The problem that a reader reports, if it cannot read the tree. -/
def Reader.problem? (t : Tree) : Reader → Option Diagnostic
  | .segments => Malformed.problem? t.readSegments
  | .path => Malformed.problem? t.readPath
  | .mutation => Malformed.problem? t.readMutation
  | .number => Malformed.problem? t.readNumber
  | .boolean => Malformed.problem? t.readBoolean
  | .string => Malformed.problem? t.readString
  | .list => Malformed.problem? t.readList
  | .dict => Malformed.problem? t.readDict
  | .type => Malformed.problem? t.readType
  | .call => Malformed.problem? t.readCall
  | .literal => Malformed.problem? t.readLiteral
  | .value => Malformed.problem? t.readValue
  | .entity => Malformed.problem? t.readEntity
  | .argument => Malformed.problem? t.readArgument
  | .arguments => Malformed.problem? t.readArguments
  | .parameter => Malformed.problem? t.readParameter
  | .parameters => Malformed.problem? t.readParameters
  | .conjuncts => Malformed.problem? t.readConjuncts
  | .expression => Malformed.problem? t.readExpression

theorem Malformed.code_of_problem? {α : Type} {x : Except Malformed α} {d : Diagnostic}
    (h : Malformed.problem? x = some d) : d.code = .malformedTree := by
  cases x with
  | ok a => cases h
  | error e =>
    obtain rfl : e.diagnostic = d := Option.some.inj h
    rfl

theorem Reader.code_of_problem? {r : Reader} {t : Tree} {d : Diagnostic} (h : r.problem? t = some d) :
    d.code = .malformedTree := by
  cases r <;> exact Malformed.code_of_problem? h

/-- The details of a problem are those that its code lists. If every statement and every path of a call holds a
    token, a problem of the script is reported at a token of the program. What cannot be read lies with the
    tree. -/
theorem problems_listed_and_located (t : Tree) :
    (∀ d, compile t = .error d → d.context.map (·.1) = d.code.details ∧
      (t.Worded → d.isInternal = false → ∃ word ∈ t.words, d.position = some word.position)) ∧
    ∀ (r : Reader) (d : Diagnostic), r.problem? t = some d → d.code = .malformedTree := by
  refine ⟨fun d hd => ?_, fun r d => Reader.code_of_problem?⟩
  unfold compile at hd
  split at hd
  · cases hd
  · rename_i e s hrun
    obtain rfl := Except.error.inj hd
    obtain ⟨q, hlisted, -⟩ := (t.lower_sound none {}).of_error hrun
    refine ⟨hlisted, fun hworded hscript => ?_⟩
    have hlocated := (Tree.lower_reports hworded t.self_mem_descendants none {}).of_error hrun
    exact hlocated.resolve_left (by simp [hscript])

/-- A function that returns the result of a call through two modules. -/
def Sample.qualified : Tree :=
  Shape.script [Shape.functionBlock "f" [] [] [Shape.returnStatement (some (Shape.call "m.n.g" [] 2)) 2] 1]

theorem problems_listed_and_located_qualified :
    Sample.qualified.Worded ∧
    (∃ d, compile Sample.qualified = .error d ∧ d.code = .functionCallInvalidPath ∧ d.context.map (·.1) = ["name"] ∧
      ∃ word ∈ Sample.qualified.words, d.position = some word.position) ∧
    ∃ d, Reader.problem? Sample.qualified .literal = some d ∧ d.code = .malformedTree := by
  have hworded : Sample.qualified.Worded := by decide +kernel
  have hcode : (match compile Sample.qualified with
      | .ok _ => none
      | .error d => some d.code) = some .functionCallInvalidPath := by decide +kernel
  obtain ⟨hproblem, hreading⟩ := problems_listed_and_located Sample.qualified
  refine ⟨hworded, ?_, _, rfl, hreading .literal _ rfl⟩
  cases hd : compile Sample.qualified with
  | ok m =>
    rw [hd] at hcode
    cases hcode
  | error d =>
    rw [hd] at hcode
    have hinvalid : d.code = .functionCallInvalidPath := Option.some.inj hcode
    obtain ⟨hlisted, hlocated⟩ := hproblem d hd
    refine ⟨d, rfl, hinvalid, ?_, hlocated hworded (by rw [Diagnostic.isInternal, hinvalid]; rfl)⟩
    rw [hlisted, hinvalid]
    rfl

end Flowline
