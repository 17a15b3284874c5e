import Flowline.Proofs.Action
import Flowline.Proofs.Lines

/-! The lines that lowering appends. `Emits` says of which kinds they are and what they hold; a function
    that makes one line either appends such a line or reports a problem and leaves the store alone. -/

namespace Flowline

/-- Whether a line with this method may have a body. -/
def Method.opensBody : Method → Bool
  | .set_ | .throw | .break_ | .return_ => false
  | _ => true

/-- Whether a line with this method may compute an operand. -/
def Method.computes : Method → Bool
  | .set_ | .expression | .mutation | .execute | .call => true
  | _ => false

/-- The lines that lowering may append to `s` under `p`, other than declarations of functions. -/
inductive Emits (s : Store) (p : Option Address) : Method → Draft → Prop
  | value {m : Method} {args : List Value} {output : Option (List String)}
      (hm : m = .set_ ∨ m = .expression ∨ m = .mutation) : Emits s p m { args := some args, output, parent := p }
  | call {name : String} {args : List Value} (hshort : (Text.dotted name).length ≤ 2)
      (hknown : ((s.function? name).isSome || (Text.dotted name).head?.any s.importsModule) = true) :
      Emits s p .call { args := some args, service := some name, parent := p }
  | invoke {m : Method} {r : Request} (hdot : Text.has r.name '.' = false)
      (hm : m = .when ∨ m = if s.isHandle r.name then .call else .execute) :
      Emits s p m
        { args := some r.args, output := r.output, parent := p, service := some r.name, command := r.command }
  | listen {handle : Value} {output : Option (List String)} :
      Emits s p .when { args := some [handle], output, parent := p }
  | leave {m : Method} {args : Option (List Value)} (hm : m = .return_ ∨ m = .break_) (hp : p.isSome = true) :
      Emits s p m { args, parent := p }
  | raise {args : List Value} : Emits s p .throw { args := some args, parent := p }
  | test {m : Method} {args : List Value} (hm : m = .if_ ∨ m = .elif ∨ m = .while_) :
      Emits s p m { args := some args, parent := p }
  | bare {m : Method} (hm : m = .else_ ∨ m = .try_ ∨ m = .finally_) : Emits s p m { parent := p }
  | iterate {subject : Value} {output : Option (List String)} :
      Emits s p .for_ { args := some [subject], output, parent := p }
  | rescue {output : Option (List String)} : Emits s p .catch_ { output, parent := p }

namespace Emits

variable {s : Store} {p : Option Address} {m : Method} {d : Draft}

theorem parent (h : Emits s p m d) : d.parent = p := by
  cases h <;> rfl

theorem ne_function (h : Emits s p m d) : m ≠ .function := by
  cases h with
  | value hm => rcases hm with rfl | rfl | rfl <;> decide
  | invoke _ hm => rcases hm with rfl | rfl <;> [decide; (split <;> decide)]
  | leave hm => rcases hm with rfl | rfl <;> decide
  | test hm => rcases hm with rfl | rfl | rfl <;> decide
  | bare hm => rcases hm with rfl | rfl | rfl <;> decide
  | _ => decide

end Emits

namespace Store

/-- Registers the service of a line before it is appended, unless the line is a call or names a handle. -/
def registerFor (s : Store) (m : Method) : Option String → Store
  | none => s
  | some name => if m = .call ∨ s.isHandle name = true then s else s.registerService name

/-- Appends a line and registers its service. -/
def emit (s : Store) (m : Method) (ln : UInt32) (d : Draft) : Store :=
  ((s.registerFor m d.service).append m ln d).2

variable (s : Store)

@[simp] theorem registerService_lines (name : String) : (s.registerService name).lines = s.lines := by
  unfold registerService
  split <;> rfl

@[simp] theorem registerService_scopes (name : String) : (s.registerService name).scopes = s.scopes := by
  unfold registerService
  split <;> rfl

@[simp] theorem registerService_functions (name : String) : (s.registerService name).functions = s.functions := by
  unfold registerService
  split <;> rfl

@[simp] theorem registerFor_lines (m : Method) (service : Option String) :
    (s.registerFor m service).lines = s.lines := by
  unfold registerFor
  split <;> [rfl; (split <;> simp)]

@[simp] theorem registerFor_scopes (m : Method) (service : Option String) :
    (s.registerFor m service).scopes = s.scopes := by
  unfold registerFor
  split <;> [rfl; (split <;> simp)]

@[simp] theorem registerFor_functions (m : Method) (service : Option String) :
    (s.registerFor m service).functions = s.functions := by
  unfold registerFor
  split <;> [rfl; (split <;> simp)]

@[simp] theorem emit_scopes (m : Method) (ln : UInt32) (d : Draft) : (s.emit m ln d).scopes = s.scopes := by
  rw [emit, append_scopes, registerFor_scopes]

@[simp] theorem emit_functions (m : Method) (ln : UInt32) (d : Draft) : (s.emit m ln d).functions = s.functions := by
  rw [emit, append_functions, registerFor_functions]

theorem fresh_of_lines {s t : Store} (h : t.lines = s.lines) (ln : UInt32) : t.fresh ln = s.fresh ln := by
  rw [fresh, fresh, h]

theorem newLine_of_lines {s t : Store} (h : t.lines = s.lines) (m : Method) (ln : UInt32) (d : Draft) :
    t.newLine m ln d = s.newLine m ln d := by
  rw [newLine, newLine, fresh_of_lines h]

theorem emit_lines (m : Method) (ln : UInt32) (d : Draft) :
    (s.emit m ln d).lines = s.linkedTo d.parent (s.fresh ln) ++ [s.newLine m ln d] := by
  have hl := s.registerFor_lines m d.service
  rw [emit, append_lines, fresh_of_lines hl, newLine_of_lines hl, linkedTo, linkedTo, hl]

theorem emit_of_unregistered {m : Method} {d : Draft} (h : d.service = none ∨ m = .call) (ln : UInt32) :
    s.emit m ln d = (s.append m ln d).2 := by
  rcases h with h | rfl
  · rw [emit, h, registerFor]
  · rw [emit]
    cases d.service with
    | none => rfl
    | some name => rw [registerFor, if_pos (Or.inl rfl)]

/-- The output names of a line that has just been appended can be given with it. -/
theorem outputLast_append (m : Method) (ln : UInt32) (d : Draft) (names : List String) :
    (s.append m ln d).2.outputLast names = (s.append m ln { d with output := some names }).2 := by
  simp only [outputLast, append_lines, Line.updateLast_concat]
  rfl

end Store

/-! ### Functions that make one line -/

/-- From `s` a line was appended under `p`, of a kind that `kind` allows, and `a` is its address. -/
def Emitted (p : Option Address) (s : Store) (kind : Method → Draft → Prop) (a : Address) (t : Store) : Prop :=
  ∃ m ln d, Emits s p m d ∧ kind m d ∧ a = s.fresh ln ∧ t = s.emit m ln d

/-- A problem was reported, and the store is as it was. -/
def Refused (s : Store) (d : Diagnostic) (t : Store) : Prop :=
  d.Listed ∧ t = s

theorem refused_malformed (s : Store) (e : Malformed) : Refused s e.diagnostic s := ⟨e.listed, rfl⟩

namespace LowerM

variable {s : Store} {p : Option Address}

theorem append_emits {m : Method} {ln : UInt32} {d : Draft} {kind : Method → Draft → Prop} (h : Emits s p m d)
    (hk : kind m d) (hd : d.service = none ∨ m = .call) :
    (append m ln d).Ends s (Emitted p s kind) (Refused s) :=
  ends_append ⟨m, ln, d, h, hk, rfl, (s.emit_of_unregistered hd ln).symm⟩

theorem invoke_emits {m : Method} {ln : UInt32} {r : Request} {place : Tree}
    {run : Store → Except Diagnostic (Address × Store)} (kind : Method → Draft → Prop)
    (hrun : run s = s.invoke m ln r p) (hm : m = .when ∨ m = if s.isHandle r.name then .call else .execute)
    (hk : ∀ d : Draft, d.output = r.output → kind m d) :
    (invoke place run).Ends s (Emitted p s kind) (Refused s) := by
  unfold invoke Ends
  simp only [hrun]
  unfold Store.invoke
  by_cases hdot : Text.has r.name '.' = true
  · simp only [hdot, if_true]
    exact ⟨rfl, rfl⟩
  · simp only [hdot, Bool.false_eq_true, if_false]
    refine ⟨m, ln, _, .invoke (Bool.eq_false_of_not_eq_true hdot) hm, hk _ rfl, ?_, ?_⟩
    · rw [Store.append_address]
      apply Store.fresh_of_lines
      split <;> simp
    · -- A call that is made by invoking a name invokes a handle, which is not registered.
      have hcall : m = .call → s.isHandle r.name = true := by
        rintro rfl
        rcases hm with hm | hm
        · cases hm
        · by_contra hh
          rw [if_neg hh] at hm
          cases hm
      unfold Store.emit Store.registerFor
      by_cases hh : s.isHandle r.name = true
      · simp [hh]
      · have hne : m ≠ .call := fun hm' => hh (hcall hm')
        simp [hh, hne]

theorem readValueCommand_method {service : Tree} {bare : Method} {x : Method × List Value}
    (h : service.readValueCommand bare = .ok x) : x.1 = .mutation ∨ x.1 = bare := by
  unfold Tree.readValueCommand at h
  obtain ⟨path, -, h⟩ := except_bind_eq_ok.mp h
  obtain ⟨subject, -, h⟩ := except_bind_eq_ok.mp h
  cases hc : (service.child? "service_fragment").bind (·.child? "command") with
  | some command =>
    simp only [hc] at h
    obtain ⟨name, -, h⟩ := except_bind_eq_ok.mp h
    obtain ⟨arguments, -, h⟩ := except_bind_eq_ok.mp h
    obtain ⟨chain, -, h⟩ := except_bind_eq_ok.mp h
    cases h
    exact Or.inl rfl
  | none =>
    simp only [hc] at h
    obtain ⟨chain, -, h⟩ := except_bind_eq_ok.mp h
    cases h
    cases chain
    · exact Or.inr rfl
    · exact Or.inl rfl

theorem valueCommand_emits {service : Tree} {bare : Method} (hb : bare = .set_ ∨ bare = .expression) :
    (valueCommand service bare p).Ends s (Emitted p s fun m _ => m = .mutation ∨ m = bare) (Refused s) := by
  unfold valueCommand
  refine Ends.bind (ends_liftM_malformed (fun x hx => ?_) (refused_malformed s))
  have hmethod := readValueCommand_method hx
  obtain ⟨method, args⟩ := x
  refine Ends.bind (ends_liftM_missing (fun ln _ => ?_) (refused_malformed s))
  refine append_emits (.value ?_) hmethod (Or.inl rfl)
  rcases hmethod with rfl | rfl
  · exact Or.inr (Or.inr rfl)
  · rcases hb with rfl | rfl
    · exact Or.inl rfl
    · exact Or.inr (Or.inl rfl)

theorem targetsValue_ends {service : Tree} :
    (targetsValue service).Ends s (fun _ t => t = s) (Refused s) := by
  unfold targetsValue
  refine Ends.bind (ends_liftM_missing (fun path _ => ?_) (refused_malformed s))
  exact Ends.bind (ends_liftM_missing (fun root _ => rfl) (refused_malformed s))

theorem serviceLine_emits {service : Tree} :
    (serviceLine service p).Ends s (Emitted p s fun m _ => m.computes) (Refused s) := by
  unfold serviceLine
  refine Ends.bind (targetsValue_ends.mono (fun b t ht => ?_) fun _ _ h => h)
  subst ht
  cases b with
  | true =>
    refine (valueCommand_emits (Or.inl rfl)).mono ?_ fun _ _ h => h
    rintro a t ⟨m, ln, d, he, hm, h⟩
    exact ⟨m, ln, d, he, by rcases hm with rfl | rfl <;> rfl, h⟩
  | false =>
    refine Ends.bind (ends_liftM_missing (fun ln _ => ?_) (refused_malformed t))
    refine Ends.bind (ends_liftM_malformed (fun r _ => ?_) (refused_malformed t))
    exact invoke_emits _ rfl (Or.inr rfl) fun _ _ => by split <;> rfl

theorem mutationLine_emits {tree : Tree} :
    (mutationLine tree p).Ends s (Emitted p s fun m d => m = .mutation ∧ d.output = none) (Refused s) := by
  unfold mutationLine
  refine Ends.bind (ends_liftM_malformed (fun subject _ => ?_) (refused_malformed s))
  refine Ends.bind (ends_liftM_malformed (fun value _ => ?_) (refused_malformed s))
  refine Ends.bind (ends_liftM_missing (fun fragment _ => ?_) (refused_malformed s))
  refine Ends.bind (ends_liftM_malformed (fun first _ => ?_) (refused_malformed s))
  refine Ends.bind (ends_liftM_malformed (fun chain _ => ?_) (refused_malformed s))
  refine Ends.bind (ends_liftM_missing (fun ln _ => ?_) (refused_malformed s))
  exact append_emits (.value (Or.inr (Or.inr rfl))) ⟨rfl, rfl⟩ (Or.inl rfl)

theorem callLine_emits {tree : Tree} :
    (callLine tree p).Ends s (Emitted p s fun m _ => m = .call) (Refused s) := by
  unfold callLine
  refine Ends.bind (ends_liftM_missing (fun path _ => ?_) (refused_malformed s))
  refine Ends.bind (ends_liftM_diagnostic (fun _ _ => ?_) fun _ h => ⟨Tree.ensure_listed rfl h, rfl⟩)
  refine Ends.bind (ends_liftM_diagnostic (fun _ hshort => ?_) fun _ h => ⟨Tree.ensure_listed rfl h, rfl⟩)
  refine Ends.bind (ends_get ?_)
  refine Ends.bind (ends_liftM_diagnostic (fun _ hknown => ?_) fun _ h => ⟨Tree.ensure_listed rfl h, rfl⟩)
  refine Ends.bind (ends_liftM_malformed (fun arguments _ => ?_) (refused_malformed s))
  refine Ends.bind (ends_liftM_missing (fun ln _ => ?_) (refused_malformed s))
  exact append_emits (.call (of_decide_eq_true (Tree.ensure_ok hshort)) (Tree.ensure_ok hknown)) rfl (Or.inr rfl)

theorem operandLine_emits {operand : Tree} :
    (operandLine operand p).Ends s (Emitted p s fun m _ => m.computes) (Refused s) := by
  unfold operandLine
  split
  · refine Ends.bind (ends_liftM_malformed (fun args _ => ?_) (refused_malformed s))
    refine Ends.bind (ends_liftM_missing (fun ln _ => ?_) (refused_malformed s))
    split
    · exact append_emits (.value (Or.inl rfl)) rfl (Or.inl rfl)
    · exact append_emits (.value (Or.inr (Or.inl rfl))) rfl (Or.inl rfl)
  · refine Ends.bind (ends_liftM_malformed (fun value _ => ?_) (refused_malformed s))
    refine Ends.bind (ends_liftM_missing (fun ln _ => ?_) (refused_malformed s))
    exact append_emits (.value (Or.inl rfl)) rfl (Or.inl rfl)
  · exact serviceLine_emits
  · refine mutationLine_emits.mono ?_ fun _ _ h => h
    rintro a t ⟨m, ln, d, he, ⟨rfl, -⟩, h⟩
    exact ⟨_, ln, d, he, rfl, h⟩
  · refine callLine_emits.mono ?_ fun _ _ h => h
    rintro a t ⟨m, ln, d, he, rfl, h⟩
    exact ⟨_, ln, d, he, rfl, h⟩
  · exact ends_throw (refused_malformed s _)

end LowerM

/-! ### Operands of headers -/

/-- Whether the operand below a node is computed by a line of its own: a service call, a mutation or a
    function call. -/
def Tree.computesOperand (t : Tree) : Bool :=
  match t.innerOperand with
  | .ok operand =>
    match OperandKind.ofTag? operand.tag with
    | some .service | some .mutation | some .call => true
    | _ => false
  | .error _ => false

/-- The operand of a header under `p` was read off, or was first computed into a variable by a line. -/
inductive OperandRead (p : Option Address) (s : Store) : Operand → Store → Prop
  | plain {args : List Value} : OperandRead p s ⟨args, none⟩ s
  | computed {m : Method} {ln : UInt32} {d : Draft} (he : Emits s p m d) (hm : m.computes = true) :
      OperandRead p s ⟨[.ofNames [(s.fresh ln).operandName]], some (s.fresh ln)⟩
        ((s.emit m ln d).nameLast [.name (s.fresh ln).operandName])

namespace LowerM

variable {s : Store} {p : Option Address}

theorem computedOperand_ends {operand : Tree} :
    (computedOperand operand p).Ends s (fun o u => OperandRead p s o u ∧ o.line.isSome = true) (Refused s) := by
  unfold computedOperand
  refine Ends.bind (operandLine_emits.mono ?_ fun _ _ h => h)
  rintro a t ⟨m, ln, d, he, hm, rfl, rfl⟩
  exact ⟨.computed he hm, rfl⟩

theorem headerOperand_ends {t : Tree} :
    (headerOperand t p).Ends s (fun o u => OperandRead p s o u ∧ o.line.isSome = t.computesOperand) (Refused s) := by
  unfold headerOperand
  refine Ends.bind (ends_liftM_malformed (fun operand hin => ?_) (refused_malformed s))
  simp only [Tree.computesOperand, hin]
  cases hkind : OperandKind.ofTag? operand.tag with
  | none =>
    -- An operand of no kind has no line.
    unfold computedOperand operandLine
    simp only [hkind]
    exact Ends.bind (ends_throw (refused_malformed s _))
  | some kind =>
    cases kind with
    | expression =>
      exact Ends.bind (ends_liftM_malformed (fun args _ => ends_pure ⟨.plain, rfl⟩) (refused_malformed s))
    | value =>
      exact Ends.bind (ends_liftM_malformed (fun value _ => ends_pure ⟨.plain, rfl⟩) (refused_malformed s))
    | service => exact computedOperand_ends
    | mutation => exact computedOperand_ends
    | call => exact computedOperand_ends

end LowerM

end Flowline
