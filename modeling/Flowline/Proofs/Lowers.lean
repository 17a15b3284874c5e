import Flowline.Proofs.Emission
import Flowline.Proofs.Links
import Flowline.Proofs.Moments

/-! What lowering can do to a store. `Lowers p s o t` says that statements under `p` lead from `s` to `t`:
    they append lines, continue the last one, import modules, and open bodies, whose statements are
    lowered under the header. The outcome tells whether they were lowered to their end or break off, and
    under which parent. Whatever a tree is, its lowering is such a derivation (`Tree.lower_sound`), so a
    property of lowering is an induction over derivations. -/

namespace Flowline

/-- How lowering ends: it is done, or it breaks off among the statements under a parent. -/
inductive Outcome where
  | done
  | broken (parent : Option Address)

/-- The name of an operand that is a named argument. -/
def Value.argumentName? : Value → Option String
  | .argument a => a.name
  | _ => none

/-- The names that a header binds in its body: the parameters of a function, and the output names of any
    other line. -/
def Line.boundNames (l : Line) : List String :=
  if l.method = .function then (l.args.getD []).filterMap Value.argumentName? else l.output.getD []

/-- What the line that declares a function holds. -/
def Draft.declaration (name : String) (parameters : List Argument) (returns : Option (List String))
    (p : Option Address) : Draft :=
  { args := some (parameters.map .argument), output := returns, function := some name, parent := p }

/-- A header is appended under `p`, to be followed by its body, in which the names are bound. -/
inductive Opens (p : Option Address) (s : Store) : Address → List String → Store → Prop
  | plain {m : Method} {ln : UInt32} {d : Draft} (he : Emits s p m d) (hm : m.opensBody = true) :
      Opens p s (s.fresh ln) (d.output.getD []) (s.emit m ln d)
  | linked {m : Method} {ln : UInt32} {d : Draft} {a : Address} (he : Emits s p m d) (hm : m.opensBody = true)
      (ha : ∃ l ∈ (s.emit m ln d).lines, l.address = a ∧ l.parent = p) :
      Opens p s (s.fresh ln) (d.output.getD []) ((s.emit m ln d).linkExit a)
  | declared {ln : UInt32} {name : String} {parameters : List Argument} {returns : Option (List String)}
      (hn : s.function? name = none) :
      Opens p s (s.fresh ln) (parameters.filterMap (·.name))
        ((s.emit .function ln (.declaration name parameters returns p)).declareFunction name (s.fresh ln)).2

/-- Statements under a parent lead from a store to a store. -/
inductive Lowers : Option Address → Store → Outcome → Store → Prop
  | skip {p : Option Address} {s : Store} : Lowers p s .done s
  | stop {p : Option Address} {s : Store} : Lowers p s (.broken p) s
  | andThen {p : Option Address} {s t u : Store} {o : Outcome} (h : Lowers p s .done t) (h' : Lowers p t o u) :
      Lowers p s o u
  | imports {p : Option Address} {s : Store} {name path : String} : Lowers p s .done (s.importModule name path)
  | continues {p : Option Address} {s : Store} {m : Method} {more : List Value}
      (hm : m = .execute ∨ m = .mutation) : Lowers p s .done (s.addArgsToLast m more).2
  | line {p : Option Address} {s : Store} {m : Method} {ln : UInt32} {d : Draft} (he : Emits s p m d) :
      Lowers p s .done (s.emit m ln d)
  | named {p : Option Address} {s : Store} {m : Method} {ln : UInt32} {d : Draft} {path : List Segment}
      (he : Emits s p m d) (hm : m.computes = true) : Lowers p s .done ((s.emit m ln d).nameLast path)
  | redeclared {p : Option Address} {s : Store} {ln : UInt32} {name : String} {parameters : List Argument}
      {returns : Option (List String)} {previous : Address} (hn : s.function? name = some previous) :
      Lowers p s (.broken p) (s.emit .function ln (.declaration name parameters returns p))
  | header {p : Option Address} {s t : Store} {h : Address} {names : List String} (ho : Opens p s h names t) :
      Lowers p s .done t
  | block {p : Option Address} {s t u : Store} {h : Address} {names output : List String}
      (ho : Opens p s h names t) (hout : Keyed t.lines → output = names)
      (hbody : Lowers (some h) (t.openScope h output) .done u) : Lowers p s .done (u.closeScope h)
  | inside {p q : Option Address} {s t u : Store} {h : Address} {names output : List String}
      (ho : Opens p s h names t) (hout : Keyed t.lines → output = names)
      (hbody : Lowers (some h) (t.openScope h output) (.broken q) u) : Lowers p s (.broken q) u
  | loop {p : Option Address} {s t u : Store} {h c : Address} {l : Line} {ln : UInt32}
      (hl : s.lines.getLast? = some l) (hc : l.address = c) (hp : l.parent = p) (hm : l.method.computes = true)
      (hn : l.name = some [.name c.operandName]) (ho : Opens p s h [] t)
      (hbody : Lowers (some h) (t.openScope h []) .done u) :
      Lowers p s .done ((u.copyLine c ln (some h)).2.closeScope h)

/-! ### Bodies and rows of statements -/

section Parts

variable {breaks : Diagnostic → Option Address → Store → Prop}

/-- Lowering breaks off with a problem as `breaks` allows. -/
def Breaks (breaks : Diagnostic → Option Address → Store → Prop) (p : Option Address) (s : Store) (d : Diagnostic)
    (t : Store) : Prop :=
  ∃ q, breaks d q t ∧ Lowers p s (.broken q) t

/-- Run under any parent from any store, the action lowers statements, and breaks off as `breaks` allows. -/
def Sound (breaks : Diagnostic → Option Address → Store → Prop) (f : Option Address → LowerM Store Unit) : Prop :=
  ∀ p s, (f p).Ends s (fun _ t => Lowers p s .done t) (Breaks breaks p s)

variable {p : Option Address} {s t : Store} {parts : List (Part Store)}

theorem Sound.after {f : Option Address → LowerM Store Unit} (hf : Sound breaks f) (h : Lowers p s .done t) :
    (f p).Ends t (fun _ u => Lowers p s .done u) (Breaks breaks p s) :=
  (hf p t).mono (fun _ _ hu => h.andThen hu) fun _ _ ⟨q, hq, hu⟩ => ⟨q, hq, h.andThen hu⟩

theorem lowerAll_sound (hparts : ∀ part ∈ parts, Sound breaks part.lower) : Sound breaks (Part.lowerAll parts) := by
  induction parts with
  | nil => exact fun p s => .skip
  | cons part rest ih =>
    intro p s
    have hrest := ih fun part' h' => hparts part' (List.mem_cons_of_mem _ h')
    exact LowerM.Ends.bind ((hparts part List.mem_cons_self p s).mono (fun _ t ht => hrest.after ht) fun _ _ h => h)

theorem lowerTagged_sound (hparts : ∀ part ∈ parts, Sound breaks part.lower) (tag : String) :
    Sound breaks (Part.lowerTagged parts tag) :=
  lowerAll_sound fun part h => hparts part (List.mem_filter.mp h).1

theorem lowerFirst_sound (hparts : ∀ part ∈ parts, Sound breaks part.lower) (tag : String) :
    Sound breaks (Part.lowerFirst parts tag) := by
  intro p s
  unfold Part.lowerFirst
  split
  · exact Lowers.skip
  · rename_i part hfind
    exact hparts part (List.mem_of_find?_eq_some hfind) p s

theorem lowerBody_ends {u : Store} {h : Address} {names : List String} {output : Option (List String)}
    (hparts : ∀ part ∈ parts, Sound breaks part.lower) (hs : Lowers p s .done t) (ho : Opens p t h names u)
    (hout : Keyed u.lines → output.getD [] = names) :
    (Part.lowerBody parts h output).Ends u (fun _ v => Lowers p s .done v) (Breaks breaks p s) := by
  unfold Part.lowerBody
  split
  · exact hs.andThen (.header ho)
  · rename_i body hfind
    refine LowerM.Ends.bind (LowerM.ends_modify ?_)
    refine LowerM.Ends.bind ((hparts body (List.mem_of_find?_eq_some hfind) _ _).mono (fun _ v hv => ?_) ?_)
    · exact LowerM.ends_modify (hs.andThen (.block ho hout hv))
    · rintro d v ⟨q, hq, hv⟩
      exact ⟨q, hq, hs.andThen (.inside ho hout hv)⟩

end Parts

/-! ### Statements without a body -/

section Statements

open LowerM

variable {breaks : Diagnostic → Option Address → Store → Prop} {p : Option Address} {s t : Store}
  (hb : ∀ d q u, Diagnostic.Listed d → breaks d q u)

theorem operandRead_lowers {o : Operand} (h : OperandRead p s o t) : Lowers p s .done t := by
  cases h with
  | plain => exact .skip
  | computed he hm => exact .named he hm

theorem append_line_ends {m : Method} {ln : UInt32} {d : Draft} {failed : Diagnostic → Store → Prop}
    (h : Lowers p s .done t) (he : Emits t p m d) (hd : d.service = none ∨ m = .call) :
    (do let _ ← append m ln d : LowerM Store Unit).Ends t (fun _ u => Lowers p s .done u) failed := by
  refine Ends.bind (ends_append (ends_pure ?_))
  rw [← t.emit_of_unregistered hd]
  exact h.andThen (.line he)

include hb

theorem breaks_of_refused (h : Lowers p s .done t) (d : Diagnostic) (u : Store) (hr : Refused t d u) :
    Breaks breaks p s d u := by
  obtain ⟨hd, rfl⟩ := hr
  exact ⟨p, hb d p u hd, h.andThen .stop⟩

theorem breaks_malformed (h : Lowers p s .done t) (e : Malformed) : Breaks breaks p s e.diagnostic t :=
  breaks_of_refused hb h _ _ (refused_malformed t e)

theorem lowerAssignment_sound (tree : Tree) : Sound breaks (lowerAssignment tree) := by
  intro p s
  have hm := breaks_malformed hb (p := p) (s := s) .skip
  unfold lowerAssignment
  refine Ends.bind (ends_liftM_missing (fun target _ => ?_) hm)
  refine Ends.bind (ends_liftM_diagnostic (fun _ _ => ?_) fun d hd => ?_)
  · refine Ends.bind (ends_liftM_malformed (fun path _ => ?_) hm)
    refine Ends.bind (ends_liftM_missing (fun fragment _ => ?_) hm)
    refine Ends.bind (ends_liftM_malformed (fun operand _ => ?_) hm)
    refine Ends.bind (operandLine_emits.mono ?_ (breaks_of_refused hb .skip))
    rintro a t ⟨m, ln, d, he, hc, -, rfl⟩
    exact ends_modify (.named he hc)
  · exact breaks_of_refused hb .skip _ _ ⟨Tree.checkNames_listed hd, rfl⟩

theorem lowerExpression_sound (tree : Tree) : Sound breaks (lowerExpression tree) := by
  intro p s
  have hm := breaks_malformed hb (p := p) (s := s) .skip
  unfold lowerExpression
  refine Ends.bind (ends_liftM_missing (fun expression _ => ?_) hm)
  refine Ends.bind (ends_liftM_malformed (fun args _ => ?_) hm)
  refine Ends.bind (ends_liftM_missing (fun ln _ => ?_) hm)
  exact append_line_ends .skip (.value (Or.inr (Or.inl rfl))) (Or.inl rfl)

theorem leave_ends {m : Method} {args : Option (List Value)} {tree : Tree} (h : Lowers p s .done t)
    (hm : m = .return_ ∨ m = .break_) (hp : p.isSome = true) :
    (do let _ ← append m (← tree.line) { args, parent := p } : LowerM Store Unit).Ends t
      (fun _ u => Lowers p s .done u) (Breaks breaks p s) := by
  refine Ends.bind (ends_liftM_missing (fun ln _ => ?_) (breaks_malformed hb h))
  exact append_line_ends h (.leave hm hp) (Or.inl rfl)

theorem lowerReturn_sound (tree : Tree) : Sound breaks (lowerReturn tree) := by
  intro p s
  unfold lowerReturn
  refine Ends.bind (ends_liftM_diagnostic (fun _ hp => ?_) fun d hd => ?_)
  · split
    · refine Ends.bind (headerOperand_ends.mono ?_ (breaks_of_refused hb .skip))
      rintro o u ⟨ho, -⟩
      exact leave_ends hb (operandRead_lowers ho) (Or.inl rfl) (Tree.ensure_ok hp)
    · exact leave_ends hb .skip (Or.inl rfl) (Tree.ensure_ok hp)
  · exact breaks_of_refused hb .skip _ _ ⟨Tree.ensure_listed rfl hd, rfl⟩

theorem lowerBreak_sound (tree : Tree) : Sound breaks (lowerBreak tree) := by
  intro p s
  unfold lowerBreak
  refine Ends.bind (ends_liftM_diagnostic (fun _ hp => ?_) fun d hd => ?_)
  · exact leave_ends hb .skip (Or.inr rfl) (Tree.ensure_ok hp)
  · exact breaks_of_refused hb .skip _ _ ⟨Tree.ensure_listed rfl hd, rfl⟩

theorem lowerThrow_sound (tree : Tree) : Sound breaks (lowerThrow tree) := by
  intro p s
  have hm := breaks_malformed hb (p := p) (s := s) .skip
  unfold lowerThrow
  refine Ends.bind (ends_liftM_malformed (fun args _ => ?_) hm)
  refine Ends.bind (ends_liftM_missing (fun ln _ => ?_) hm)
  exact append_line_ends .skip .raise (Or.inl rfl)

theorem lowerImport_sound (tree : Tree) : Sound breaks fun _ => lowerImport tree := by
  intro p s
  have hm := breaks_malformed hb (p := p) (s := s) .skip
  unfold lowerImport
  refine Ends.bind (ends_liftM_missing (fun string _ => ?_) hm)
  refine Ends.bind (ends_liftM_missing (fun path _ => ?_) hm)
  refine Ends.bind (ends_liftM_malformed (fun name _ => ?_) hm)
  exact ends_modify .imports

theorem continueLast_ends {place : Tree} {m : Method} {code : Code} {more : List Value}
    (hc : m = .execute ∨ m = .mutation) (hcode : code.details = []) :
    (continueLast place m code more).Ends s (fun _ t => Lowers p s .done t) (Breaks breaks p s) := by
  unfold continueLast
  refine Ends.bind (ends_modifyGet (ends_liftM_diagnostic (fun _ _ => .continues hc) fun d hd => ?_))
  exact breaks_of_refused hb (.continues hc) _ _ ⟨Tree.ensure_listed (by rw [hcode, List.map_nil]) hd, rfl⟩

theorem continueMutation_sound (tree : Tree) : Sound breaks fun _ => continueMutation tree := by
  intro p s
  unfold continueMutation
  refine Ends.bind (ends_liftM_malformed (fun more _ => ?_) (breaks_malformed hb .skip))
  exact continueLast_ends hb (Or.inr rfl) rfl

theorem continueArguments_sound (tree : Tree) : Sound breaks fun _ => continueArguments tree := by
  intro p s
  unfold continueArguments
  refine Ends.bind (ends_liftM_malformed (fun arguments _ => ?_) (breaks_malformed hb .skip))
  exact continueLast_ends hb (Or.inl rfl) rfl

theorem callLine_sound (tree : Tree) : Sound breaks (fun p => do let _ ← callLine tree p) := by
  intro p s
  refine Ends.bind (callLine_emits.mono ?_ (breaks_of_refused hb .skip))
  rintro a t ⟨m, ln, d, he, -, -, rfl⟩
  exact ends_pure (.line he)

end Statements

/-! ### Statements with a body -/

section Blocks

open LowerM

variable {breaks : Diagnostic → Option Address → Store → Prop} {p : Option Address} {s t : Store}
  {parts : List (Part Store)}

theorem opens_append {m : Method} {d : Draft} (he : Emits s p m d) (hd : d.service = none ∨ m = .call) (ln : UInt32)
    (hm : m.opensBody = true) : Opens p s (s.fresh ln) (d.output.getD []) (s.append m ln d).2 := by
  rw [← s.emit_of_unregistered hd]
  exact .plain he hm

theorem mem_append_lines {m : Method} {ln : UInt32} {d : Draft} {l : Line} (hl : l ∈ s.lines) :
    ∃ l' ∈ (s.append m ln d).2.lines, l'.address = l.address ∧ l'.parent = l.parent := by
  obtain ⟨l', hl', hr⟩ := forall₂_mem_left (Store.touched_linkedTo s d.parent (s.fresh ln)) l hl
  rw [Store.append_lines]
  exact ⟨l', List.mem_append_left _ hl', by rw [hr.rest], by rw [hr.rest]⟩

/-- The line that a chain leads to stands under the parent of its headers. -/
theorem opens_linked {m : Method} {ln : UInt32} {d : Draft} {a : Address} (he : Emits s p m d)
    (hm : m.opensBody = true) (hd : d.service = none ∨ m = .call)
    (ha : a = s.fresh ln ∨ ∃ l ∈ s.lines, l.address = a ∧ l.parent = p) :
    Opens p s (s.fresh ln) (d.output.getD []) ((s.append m ln d).2.linkExit a) := by
  have hmem : ∃ l ∈ (s.append m ln d).2.lines, l.address = a ∧ l.parent = p := by
    rcases ha with rfl | ⟨l, hl, rfl, rfl⟩
    · exact ⟨s.newLine m ln d, by rw [Store.append_lines]; simp, rfl, he.parent⟩
    · exact mem_append_lines hl
  rw [← s.emit_of_unregistered hd] at hmem ⊢
  exact .linked he hm hmem

/-- A chain leads to the line that computes the condition, or else to the header itself. -/
theorem operandRead_target {o : Operand} (ho : OperandRead p s o t) (ln : UInt32) :
    o.line.getD (t.fresh ln) = t.fresh ln ∨ ∃ l ∈ t.lines, l.address = o.line.getD (t.fresh ln) ∧ l.parent = p := by
  cases ho with
  | plain => exact Or.inl rfl
  | @computed m ln' d he hm =>
    refine Or.inr ⟨{ s.newLine m ln' d with name := some [.name (s.fresh ln').operandName] }, ?_, rfl, he.parent⟩
    simp [Store.nameLast, Store.emit_lines, Line.updateLast_concat]

/-- The header that was appended last is the line at its address. -/
theorem line?_emit_output (m : Method) (ln : UInt32) (d : Draft) (hk : Keyed (s.emit m ln d).lines) :
    ((s.emit m ln d).line? (s.fresh ln)).bind (·.output) = d.output := by
  have hmem : s.newLine m ln d ∈ (s.emit m ln d).lines := by
    rw [Store.emit_lines]
    simp
  cases hl : (s.emit m ln d).line? (s.fresh ln) with
  | none =>
    have := List.find?_eq_none.mp hl _ hmem
    simp at this
  | some l =>
    have ha : l.address = s.fresh ln := by simpa using List.find?_some hl
    rw [eq_of_address hk (List.mem_of_find?_eq_some hl) hmem ha]
    rfl

theorem declared_outputLast (ln : UInt32) (name : String) (parameters : List Argument) (names : List String) :
    (s.append .function ln { args := some (parameters.map .argument), function := some name, parent := p }).2.outputLast
      names = s.emit .function ln (.declaration name parameters (some names) p) := by
  rw [Store.outputLast_append, s.emit_of_unregistered (Or.inl rfl)]
  rfl

/-- A copy is appended alike whether the scope of a body is closed before or after. -/
theorem closeScope_copyLine (h c : Address) (ln : UInt32) (q : Option Address) :
    (s.copyLine c ln q).2.closeScope h = ((s.closeScope h).copyLine c ln q).2 := by
  unfold Store.copyLine
  have hline : (s.closeScope h).line? c = s.line? c := rfl
  rw [hline]
  cases s.line? c <;> rfl

theorem closeScope_openScope (h : Address) : (s.openScope h []).closeScope h = s := by
  simp [Store.openScope, Store.closeScope, Scopes.defineAll, Scopes.push, Scopes.pop, Scopes.frames]

variable (hb : ∀ d q u, Diagnostic.Listed d → breaks d q u) (hparts : ∀ part ∈ parts, Sound breaks part.lower)

include hb hparts

theorem lowerService_sound (tree : Tree) : Sound breaks (lowerService tree parts) := by
  intro p s
  have hm := breaks_malformed hb (p := p) (s := s) .skip
  unfold lowerService
  have hrest : ∀ service : Tree, Ends (do
      if ← targetsValue service then do
        let header ← valueCommand service .expression p
        let output := ((← get).line? header).bind (·.output)
        Part.lowerBody parts header output
      else do
        let call ← service.readRequest
        let line ← service.line
        let header ← invoke service (·.execute line call p)
        Part.lowerBody parts header call.output) s (fun _ t => Lowers p s .done t) (Breaks breaks p s) := by
    intro service
    refine Ends.bind (targetsValue_ends.mono (fun b t ht => ?_) (breaks_of_refused hb .skip))
    subst ht
    cases b with
    | true =>
      refine Ends.bind ((valueCommand_emits (Or.inr rfl)).mono ?_ (breaks_of_refused hb .skip))
      rintro h u ⟨m, ln, d, he, hmethod, rfl, rfl⟩
      have hopens : m.opensBody = true := by rcases hmethod with rfl | rfl <;> rfl
      refine Ends.bind (ends_get ?_)
      refine lowerBody_ends hparts .skip (.plain he hopens) fun hk => ?_
      rw [line?_emit_output m ln d hk]
    | false =>
      refine Ends.bind (ends_liftM_malformed (fun r _ => ?_) hm)
      refine Ends.bind (ends_liftM_missing (fun ln _ => ?_) hm)
      refine Ends.bind ((invoke_emits (fun m d => m.opensBody = true ∧ d.output = r.output) rfl (Or.inr rfl) ?_).mono ?_
        (breaks_of_refused hb .skip))
      · exact fun d hd => ⟨by split <;> rfl, hd⟩
      · rintro h u ⟨m, ln, d, he, ⟨hopens, hd⟩, rfl, rfl⟩
        exact lowerBody_ends hparts .skip (.plain he hopens) fun _ => by rw [hd]
  split
  · refine Ends.bind (ends_pure ?_)
    exact hrest tree
  · refine Ends.bind (ends_liftM_missing (fun service _ => ?_) hm)
    exact hrest service

theorem lowerMutation_sound (tree : Tree) : Sound breaks (lowerMutation tree parts) := by
  intro p s
  unfold lowerMutation
  have hrest : ∀ mutated : Tree, Ends (do
      let header ← mutationLine mutated p
      Part.lowerBody parts header none) s (fun _ t => Lowers p s .done t) (Breaks breaks p s) := by
    intro mutated
    refine Ends.bind (mutationLine_emits.mono ?_ (breaks_of_refused hb .skip))
    rintro h u ⟨m, ln, d, he, ⟨rfl, hd⟩, rfl, rfl⟩
    exact lowerBody_ends hparts .skip (.plain he rfl) fun _ => by rw [hd]
  split
  · refine Ends.bind (ends_pure ?_)
    exact hrest tree
  · refine Ends.bind (ends_liftM_missing (fun mutated _ => ?_) (breaks_malformed hb .skip))
    exact hrest mutated

theorem lowerWhen_sound (tree : Tree) : Sound breaks (lowerWhen tree parts) := by
  intro p s
  have hm := breaks_malformed hb (p := p) (s := s) .skip
  unfold lowerWhen
  refine Ends.bind (ends_liftM_missing (fun ln _ => ?_) hm)
  split
  · refine Ends.bind (ends_liftM_malformed (fun r _ => ?_) hm)
    refine Ends.bind ((invoke_emits (fun m d => m = .when ∧ d.output = r.output) rfl (Or.inl rfl) ?_).mono ?_
      (breaks_of_refused hb .skip))
    · exact fun d hd => ⟨rfl, hd⟩
    · rintro h u ⟨m, ln, d, he, ⟨rfl, hd⟩, rfl, rfl⟩
      exact lowerBody_ends hparts .skip (.plain he rfl) fun _ => by rw [hd]
  · refine Ends.bind (ends_liftM_missing (fun path _ => ?_) hm)
    refine Ends.bind (ends_liftM_malformed (fun handle _ => ?_) hm)
    refine Ends.bind (ends_append ?_)
    exact lowerBody_ends hparts .skip (opens_append .listen (Or.inl rfl) _ rfl) fun _ => rfl

theorem lowerIf_sound (tree : Tree) : Sound breaks (lowerIf tree parts) := by
  intro p s
  unfold lowerIf
  refine Ends.bind (ends_liftM_missing (fun statement _ => ?_) (breaks_malformed hb .skip))
  refine Ends.bind (headerOperand_ends.mono ?_ (breaks_of_refused hb .skip))
  rintro o u ⟨ho, -⟩
  have hu := operandRead_lowers ho
  refine Ends.bind (ends_liftM_missing (fun ln _ => ?_) (breaks_malformed hb hu))
  refine Ends.bind (ends_append ?_)
  have hemits : Emits u p .if_ { args := some o.args, parent := p } := .test (Or.inl rfl)
  have hopens := opens_append hemits (Or.inl rfl) ln rfl
  refine Ends.bind ((lowerBody_ends hparts hu hopens fun _ => rfl).mono (fun _ v hv => ?_) fun _ _ h => h)
  refine Ends.bind (((lowerTagged_sound hparts "elseif_block").after hv).mono (fun _ w hw => ?_) fun _ _ h => h)
  exact (lowerFirst_sound hparts "else_block").after hw

theorem lowerElseIf_sound (tree : Tree) : Sound breaks (lowerElseIf tree parts) := by
  intro p s
  unfold lowerElseIf
  refine Ends.bind (ends_liftM_missing (fun statement _ => ?_) (breaks_malformed hb .skip))
  refine Ends.bind (headerOperand_ends.mono ?_ (breaks_of_refused hb .skip))
  rintro o u ⟨ho, -⟩
  have hu := operandRead_lowers ho
  refine Ends.bind (ends_liftM_missing (fun ln _ => ?_) (breaks_malformed hb hu))
  refine Ends.bind (ends_append (Ends.bind (ends_modify ?_)))
  have htarget := operandRead_target ho ln
  exact lowerBody_ends hparts hu (opens_linked (.test (Or.inr (Or.inl rfl))) rfl (Or.inl rfl) htarget) fun _ => rfl

theorem lowerLastBranch_sound {m : Method} (hm : m = .else_ ∨ m = .finally_) (tree : Tree) :
    Sound breaks (lowerLastBranch m tree parts) := by
  intro p s
  unfold lowerLastBranch
  refine Ends.bind (ends_liftM_missing (fun ln _ => ?_) (breaks_malformed hb .skip))
  refine Ends.bind (ends_append (Ends.bind (ends_modify ?_)))
  have hemits : Emits s p m { parent := p } := .bare (by rcases hm with rfl | rfl <;> simp)
  have hopens : m.opensBody = true := by rcases hm with rfl | rfl <;> rfl
  exact lowerBody_ends hparts .skip (opens_linked hemits hopens (Or.inl rfl) (Or.inl rfl)) fun _ => rfl

theorem lowerForeach_sound (tree : Tree) : Sound breaks (lowerForeach tree parts) := by
  intro p s
  have hm := breaks_malformed hb (p := p) (s := s) .skip
  unfold lowerForeach
  refine Ends.bind (ends_liftM_missing (fun statement _ => ?_) hm)
  split
  · refine Ends.bind (ends_pure ?_)
    refine Ends.bind (ends_liftM_malformed (fun value _ => ?_) hm)
    refine Ends.bind (ends_liftM_missing (fun ln _ => ?_) hm)
    refine Ends.bind (ends_append ?_)
    exact lowerBody_ends hparts .skip (opens_append .iterate (Or.inl rfl) _ rfl) fun _ => rfl
  · exact Ends.bind (ends_throw (hm _))

theorem lowerTry_sound (tree : Tree) : Sound breaks (lowerTry tree parts) := by
  intro p s
  unfold lowerTry
  refine Ends.bind (ends_liftM_missing (fun ln _ => ?_) (breaks_malformed hb .skip))
  refine Ends.bind (ends_append ?_)
  have hemits : Emits s p .try_ { parent := p } := .bare (Or.inr (Or.inl rfl))
  have hopens := opens_append hemits (Or.inl rfl) ln rfl
  refine Ends.bind ((lowerBody_ends hparts .skip hopens fun _ => rfl).mono (fun _ v hv => ?_) fun _ _ h => h)
  refine Ends.bind (((lowerFirst_sound hparts "catch_block").after hv).mono (fun _ w hw => ?_) fun _ _ h => h)
  exact (lowerFirst_sound hparts "finally_block").after hw

theorem lowerCatch_sound (tree : Tree) : Sound breaks (lowerCatch tree parts) := by
  intro p s
  have hm := breaks_malformed hb (p := p) (s := s) .skip
  unfold lowerCatch
  refine Ends.bind (ends_liftM_missing (fun statement _ => ?_) hm)
  refine Ends.bind (ends_liftM_missing (fun ln _ => ?_) hm)
  refine Ends.bind (ends_append (Ends.bind (ends_modify ?_)))
  exact lowerBody_ends hparts .skip (opens_linked .rescue rfl (Or.inl rfl) (Or.inl rfl)) fun _ => rfl

theorem lowerWhile_sound (tree : Tree) : Sound breaks (lowerWhile tree parts) := by
  intro p s
  have hm := breaks_malformed hb (p := p) (s := s) .skip
  unfold lowerWhile
  refine Ends.bind (ends_liftM_missing (fun statement _ => ?_) hm)
  refine Ends.bind (ends_liftM_missing (fun ln _ => ?_) hm)
  refine Ends.bind (headerOperand_ends.mono ?_ (breaks_of_refused hb .skip))
  rintro o u ⟨ho, -⟩
  have hu := operandRead_lowers ho
  refine Ends.bind (ends_append ?_)
  have hemits : Emits u p .while_ { args := some o.args, parent := p } := .test (Or.inr (Or.inr rfl))
  have hopens := opens_append hemits (Or.inl rfl) ln rfl
  cases ho with
  | plain =>
    exact Ends.bind ((lowerBody_ends hparts hu hopens fun _ => rfl).mono (fun _ v hv => ends_pure hv) fun _ _ h => h)
  | @computed m ln' d he hm' =>
    -- The copy of the condition line closes the body, whether there is one or not.
    have hlast : ((s.emit m ln' d).nameLast [.name (s.fresh ln').operandName]).lines.getLast? =
        some { s.newLine m ln' d with name := some [.name (s.fresh ln').operandName] } := by
      simp [Store.nameLast, Store.emit_lines, Line.updateLast_concat]
    have hloop : ∀ v, Lowers (some _) _ .done v →
        Lowers p s .done ((v.copyLine (s.fresh ln') ln (some _)).2.closeScope _) := fun v hbody =>
      hu.andThen (.loop hlast rfl he.parent hm' rfl hopens hbody)
    unfold Part.lowerBody
    split
    · have hskip := hloop _ .skip
      rw [closeScope_copyLine, closeScope_openScope] at hskip
      exact Ends.bind (ends_pure (Ends.bind (ends_modifyGet (ends_pure hskip))))
    · rename_i body hfind
      refine Ends.bind (Ends.bind (ends_modify (Ends.bind ?_)))
      refine (hparts body (List.mem_of_find?_eq_some hfind) _ _).mono (fun _ v hv => ends_modify ?_) ?_
      · have hdone := hloop v hv
        rw [closeScope_copyLine] at hdone
        exact Ends.bind (ends_modifyGet (ends_pure hdone))
      · rintro d v ⟨q, hq, hv⟩
        exact ⟨q, hq, hu.andThen (.inside hopens (fun _ => rfl) hv)⟩

theorem lowerFunction_sound (tree : Tree) : Sound breaks (lowerFunction tree parts) := by
  intro p s
  have hm := breaks_malformed hb (p := p) (s := s) .skip
  unfold lowerFunction
  refine Ends.bind (ends_liftM_missing (fun statement _ => ?_) hm)
  refine Ends.bind (ends_liftM_malformed (fun token _ => ?_) hm)
  refine Ends.bind (ends_liftM_malformed (fun parameters _ => ?_) hm)
  refine Ends.bind (ends_liftM_missing (fun returns _ => ?_) hm)
  refine Ends.bind (ends_liftM_missing (fun ln _ => ?_) hm)
  refine Ends.bind (ends_append ?_)
  have hrest : ∀ returns, Ends (lowerDeclared parts statement token.value (s.fresh ln) parameters)
      (s.emit .function ln (.declaration token.value parameters returns p)) (fun _ t => Lowers p s .done t)
      (Breaks breaks p s) := by
    intro returns
    have hfunction : (s.emit .function ln (.declaration token.value parameters returns p)).function? token.value =
        s.function? token.value := by
      rw [Store.function?, Store.emit_functions, Store.function?]
    cases hn : s.function? token.value with
    | none =>
      refine Ends.bind (ends_declareFunction ?_)
      have hopens : Opens p s (s.fresh ln) (parameters.filterMap (·.name)) ((s.emit .function ln
          (.declaration token.value parameters returns p)).declareFunction token.value (s.fresh ln)).2 := .declared hn
      simp only [Store.declareFunction, hfunction, hn] at hopens ⊢
      exact lowerBody_ends hparts .skip hopens fun _ => rfl
    | some previous =>
      refine Ends.bind (ends_declareFunction ?_)
      simp only [Store.declareFunction, hfunction, hn]
      refine Ends.bind (ends_throw ⟨p, hb _ _ _ rfl, .redeclared hn⟩)
  cases returns with
  | none =>
    have hnone := hrest none
    rw [s.emit_of_unregistered (Or.inl rfl)] at hnone
    exact hnone
  | some names =>
    refine Ends.bind (ends_outputLast ?_)
    rw [declared_outputLast]
    exact hrest (some names)

end Blocks

/-! ### Whole trees -/

section Trees

open LowerM

variable {breaks : Diagnostic → Option Address → Store → Prop}

theorem statement_sound (hb : ∀ d q u, Diagnostic.Listed d → breaks d q u) {parts : List (Part Store)}
    (hparts : ∀ part ∈ parts, Sound breaks part.lower) (tree : Tree) : Sound breaks (statement tree parts) := by
  intro p s
  unfold statement
  cases Statement.ofTag? tree.tag with
  | none => exact ends_throw (breaks_of_refused hb .skip _ _ ⟨rfl, rfl⟩)
  | some kind =>
    cases kind with
    | container => exact lowerAll_sound hparts p s
    | assignment => exact lowerAssignment_sound hb tree p s
    | absoluteExpression => exact lowerExpression_sound hb tree p s
    | service => exact lowerService_sound hb hparts tree p s
    | mutation => exact lowerMutation_sound hb hparts tree p s
    | chain => exact continueMutation_sound hb tree p s
    | arguments => exact continueArguments_sound hb tree p s
    | call => exact callLine_sound hb tree p s
    | when => exact lowerWhen_sound hb hparts tree p s
    | if_ => exact lowerIf_sound hb hparts tree p s
    | elseIf => exact lowerElseIf_sound hb hparts tree p s
    | else_ => exact lowerLastBranch_sound hb hparts (Or.inl rfl) tree p s
    | foreach => exact lowerForeach_sound hb hparts tree p s
    | while_ => exact lowerWhile_sound hb hparts tree p s
    | try_ => exact lowerTry_sound hb hparts tree p s
    | catch_ => exact lowerCatch_sound hb hparts tree p s
    | finally_ => exact lowerLastBranch_sound hb hparts (Or.inr rfl) tree p s
    | function => exact lowerFunction_sound hb hparts tree p s
    | return_ => exact lowerReturn_sound hb tree p s
    | break_ => exact lowerBreak_sound hb tree p s
    | throw => exact lowerThrow_sound hb tree p s
    | import_ => exact lowerImport_sound hb tree p s

namespace Tree

variable {stop : Tree → Option Address → Store → Bool} {report : Tree → Option Address → Diagnostic}

mutual

theorem lowerUntil_sound (hb : ∀ d q u, Diagnostic.Listed d → breaks d q u)
    (hstop : ∀ c q u, stop c q u = true → breaks (report c q) q u) :
    ∀ t : Tree, Sound breaks (t.lowerUntil stop report)
  | ⟨tag, children⟩ => by
    intro p s
    rw [lowerUntil]
    refine Ends.bind (ends_get ?_)
    split
    · rename_i hs
      exact ends_throw ⟨p, hstop _ p s hs, .stop⟩
    · exact statement_sound hb (partsUntil_sound hb hstop children) _ p s

theorem partsUntil_sound (hb : ∀ d q u, Diagnostic.Listed d → breaks d q u)
    (hstop : ∀ c q u, stop c q u = true → breaks (report c q) q u) :
    ∀ (children : List Child), ∀ part ∈ partsUntil stop report children, Sound breaks part.lower
  | [], _, hp => by cases hp
  | .token _ :: rest, part, hp => partsUntil_sound hb hstop rest part hp
  | .tree t :: rest, part, hp => by
    rw [partsUntil] at hp
    rcases List.mem_cons.mp hp with rfl | hp
    · exact lowerUntil_sound hb hstop t
    · exact partsUntil_sound hb hstop rest part hp

end

/-- Lowering a tree under a parent is a derivation, and its problems list their details. -/
theorem lower_sound (t : Tree) : Sound (fun d _ _ => d.Listed) t.lower := by
  rw [← lowerUntil_never fun _ _ => { code := .malformedTree }]
  exact lowerUntil_sound (fun _ _ _ hd => hd) (fun _ _ _ h => by cases h) t

theorem lower_done {t : Tree} {p : Option Address} {s u : Store} {x : Unit} (h : t.lower p s = .ok x u) :
    Lowers p s .done u :=
  (t.lower_sound p s).of_ok h

end Tree

theorem compile_done {t : Tree} {m : Manifest} (h : compile t = .ok m) :
    ∃ s, Lowers none {} .done s ∧ m = s.manifest Manifest.formatVersion := by
  unfold compile at h
  split at h
  · rename_i s hs
    exact ⟨s, Tree.lower_done hs, (Except.ok.inj h).symm⟩
  · cases h

end Trees

end Flowline
