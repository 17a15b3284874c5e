import Flowline.Proofs.Reports

/-! Statements that fail as a whole. A statement without a body that fails leaves the store exactly as it was:
    whatever can fail in it comes before its first change. Only `return` asks for its own source line after the
    line of its operand has been appended; but an operand that a line was made of stands somewhere in the source,
    and so does the statement around it. -/

namespace Flowline

/-! ### Positions -/

namespace Tree

variable {t u : Tree} {ln : UInt32}

theorem words_ne_nil_of_line (h : t.line = .ok ln) : t.words ≠ [] := by
  intro hnil
  rw [line, position?_eq_words, hnil] at h
  cases h

theorem line_of_words (h : t.words ≠ []) : ∃ ln, t.line = .ok ln := by
  obtain ⟨word, rest, hwords⟩ := List.exists_cons_of_ne_nil h
  exact ⟨word.position.line, by rw [line, position?_eq_words, hwords]; rfl⟩

theorem words_ne_nil_of_descendant (hu : u ∈ t.descendants) (h : u.words ≠ []) : t.words ≠ [] := by
  obtain ⟨word, hword⟩ := List.exists_mem_of_ne_nil _ h
  exact List.ne_nil_of_mem (words_of_descendant hu hword)

end Tree

/-! ### Actions -/

namespace LowerM

/-- If the action fails, the store is as it was. -/
def Atomic {α : Type} (m : LowerM Store α) : Prop :=
  ∀ s, m.Ends s (fun _ _ => True) fun _ t => t = s

/-- The action never fails. -/
def Total {α : Type} (m : LowerM Store α) : Prop :=
  ∀ s, m.Ends s (fun _ _ => True) fun _ _ => False

variable {α β : Type} {m : LowerM Store α} {f : α → LowerM Store β} {p : Option Address} {s : Store}

namespace Atomic

theorem of_refused {done : Store → α → Store → Prop} (h : ∀ s, m.Ends s (done s) (Refused s)) : Atomic m :=
  fun s => (h s).mono (fun _ _ _ => trivial) fun _ _ hr => hr.2

theorem of_total (h : Total m) : Atomic m :=
  fun s => (h s).mono (fun _ _ _ => trivial) fun _ _ => False.elim

/-- After the first change nothing may fail. -/
theorem andThen (h : Atomic m) (hf : ∀ a, Total (f a)) : Atomic (m >>= f) :=
  fun s => Ends.bind ((h s).mono (fun a t _ => (hf a t).mono (fun _ _ h => h) fun _ _ => False.elim) fun _ _ h => h)

theorem ensured {x : Except Diagnostic α} (hf : ∀ a, Atomic (f a)) : Atomic (liftM x >>= f) :=
  fun s => Ends.bind (ends_liftM_diagnostic (fun a _ => hf a s) fun _ _ => rfl)

theorem read {x : Except Malformed α} (hf : ∀ a, Atomic (f a)) : Atomic (liftM x >>= f) :=
  fun s => Ends.bind (ends_liftM_malformed (fun a _ => hf a s) fun _ => rfl)

theorem lookUp {x : Except Missing α} (hf : ∀ a, Atomic (f a)) : Atomic (liftM x >>= f) :=
  fun s => Ends.bind (ends_liftM_missing (fun a _ => hf a s) fun _ => rfl)

end Atomic

theorem total_pure (a : α) : Total (pure a : LowerM Store α) := fun _ => trivial

theorem total_modifyGet (g : Store → α × Store) : Total (modifyGet g : LowerM Store α) := fun _ => trivial

theorem total_append (m : Method) (ln : UInt32) (d : Draft) : Total (append m ln d) := fun _ => trivial

theorem Total.bind (h : Total m) (hf : ∀ a, Total (f a)) : Total (m >>= f) :=
  fun s => Ends.bind ((h s).mono (fun a t _ => hf a t) fun _ _ h => h)

theorem ends_found {x : Except Missing α} {a : α} {done : α → Store → Prop} {failed : Diagnostic → Store → Prop}
    (hx : x = .ok a) (h : done a s) : (liftM x : LowerM Store α).Ends s done failed := by
  subst hx
  exact h

/-- A continuation either finds the line that it continues, or changes nothing. -/
theorem atomic_continueLast (place : Tree) (expected : Method) (code : Code) (more : List Value) :
    Atomic (continueLast place expected code more) := by
  intro s
  have hkept : ∀ d, place.ensure (s.addArgsToLast expected more).1 code [] = .error d →
      (s.addArgsToLast expected more).2 = s := by
    intro d hd
    unfold Store.addArgsToLast Store.addArgs at hd ⊢
    split
    · rfl
    · rename_i last hlast
      split
      · rfl
      · rename_i line hline
        split
        · rename_i hmethod
          simp [hlast, hline, hmethod, Tree.ensure] at hd
        · rfl
  exact Ends.bind (ends_modifyGet (ends_liftM_diagnostic (fun _ _ => trivial) hkept))

/-! ### Operands -/

theorem ends_at_line {t : Tree} {f : UInt32 → LowerM Store α} :
    (liftM t.line >>= f).Ends s (fun _ _ => t.words ≠ []) fun _ _ => True := by
  refine Ends.bind (ends_liftM_missing (fun ln h => ?_) fun _ => trivial)
  have hwords := Tree.words_ne_nil_of_line h
  unfold Ends
  split <;> trivial

/-- An operand that a line was made of stands somewhere in the source. -/
theorem operandLine_worded (operand : Tree) :
    (operandLine operand p).Ends s (fun _ _ => operand.words ≠ []) fun _ _ => True := by
  unfold operandLine
  split
  · exact Ends.bind (ends_liftM_malformed (fun _ _ => ends_at_line) fun _ => trivial)
  · exact Ends.bind (ends_liftM_malformed (fun _ _ => ends_at_line) fun _ => trivial)
  · unfold serviceLine
    refine Ends.bind (targetsValue_ends.mono (fun targets _ _ => ?_) fun _ _ _ => trivial)
    split
    · exact Ends.bind (ends_liftM_malformed (fun _ _ => ends_at_line) fun _ => trivial)
    · exact ends_at_line
  · unfold mutationLine
    refine Ends.bind (ends_liftM_malformed (fun _ _ => ?_) fun _ => trivial)
    refine Ends.bind (ends_liftM_malformed (fun _ _ => ?_) fun _ => trivial)
    refine Ends.bind (ends_liftM_missing (fun _ _ => ?_) fun _ => trivial)
    refine Ends.bind (ends_liftM_malformed (fun _ _ => ?_) fun _ => trivial)
    exact Ends.bind (ends_liftM_malformed (fun _ _ => ends_at_line) fun _ => trivial)
  · unfold callLine
    refine Ends.bind (ends_liftM_missing (fun _ _ => ?_) fun _ => trivial)
    refine Ends.bind (ends_liftM_diagnostic (fun _ _ => ?_) fun _ _ => trivial)
    refine Ends.bind (ends_liftM_diagnostic (fun _ _ => ?_) fun _ _ => trivial)
    refine Ends.bind (ends_get ?_)
    refine Ends.bind (ends_liftM_diagnostic (fun _ _ => ?_) fun _ _ => trivial)
    exact Ends.bind (ends_liftM_malformed (fun _ _ => ends_at_line) fun _ => trivial)
  · exact ends_throw trivial

/-- Reading the operand of a header changes the store only if the operand stands somewhere in the source. -/
theorem headerOperand_worded (t : Tree) :
    (headerOperand t p).Ends s (fun _ u => u = s ∨ t.words ≠ []) (Refused s) := by
  have hchanges : (headerOperand t p).Ends s (fun _ u => u = s ∨ t.words ≠ []) fun _ _ => True := by
    unfold headerOperand
    refine Ends.bind (ends_liftM_malformed (fun operand hin => ?_) fun _ => trivial)
    split
    · exact Ends.bind (ends_liftM_malformed (fun _ _ => ends_pure (Or.inl rfl)) fun _ => trivial)
    · exact Ends.bind (ends_liftM_malformed (fun _ _ => ends_pure (Or.inl rfl)) fun _ => trivial)
    · refine Ends.bind ((operandLine_worded operand).mono (fun _ _ hw => ?_) fun _ _ h => h)
      have hmem := Tree.innerOperand_descendant t.self_mem_descendants hin
      exact Ends.bind (ends_modify (ends_pure (Or.inr (Tree.words_ne_nil_of_descendant hmem hw))))
  exact (hchanges.and headerOperand_ends).mono (fun _ _ h => h.1) fun _ _ h => h.2

/-! ### Statements -/

theorem atomic_operandLine (operand : Tree) : Atomic (operandLine operand p) :=
  .of_refused fun _ => operandLine_emits

/-- The end of a statement: a line is appended where the statement starts. -/
theorem atomic_line (t : Tree) (m : Method) (d : Draft) : Atomic (do let _ ← append m (← t.line) d) :=
  .lookUp fun ln => .of_total ((total_append m ln d).bind total_pure)

theorem atomic_assignment (t : Tree) : Atomic (lowerAssignment t p) :=
  .lookUp fun _ => .ensured fun _ => .read fun _ => .lookUp fun _ => .read fun operand =>
    (atomic_operandLine operand).andThen fun _ => total_modifyGet _

theorem atomic_expression (t : Tree) : Atomic (lowerExpression t p) :=
  .lookUp fun _ => .read fun _ => atomic_line t _ _

theorem atomic_call (t : Tree) : Atomic (do let _ ← callLine t p) :=
  (Atomic.of_refused fun _ => callLine_emits).andThen total_pure

theorem atomic_return (t : Tree) : Atomic (lowerReturn t p) := by
  refine .ensured fun _ => ?_
  split
  · rename_i base hbase
    intro s
    refine Ends.bind ((headerOperand_worded base).mono (fun o u hu => ?_) fun _ _ hr => hr.2)
    rcases hu with rfl | hwords
    · exact atomic_line t .return_ _ u
    · have hmem := Tree.subtree_descendant t.self_mem_descendants (Tree.child?_eq_some hbase).1
      obtain ⟨ln, hln⟩ := Tree.line_of_words (Tree.words_ne_nil_of_descendant hmem hwords)
      exact Ends.bind (ends_pure (Ends.bind (ends_found hln (Ends.bind (ends_append (ends_pure trivial))))))
  · exact atomic_line t _ _

theorem atomic_break (t : Tree) : Atomic (lowerBreak t p) :=
  .ensured fun _ => atomic_line t _ _

theorem atomic_throw (t : Tree) : Atomic (lowerThrow t p) :=
  .read fun _ => atomic_line t _ _

theorem atomic_import (t : Tree) : Atomic (lowerImport t) :=
  .lookUp fun _ => .lookUp fun _ => .read fun _ => .of_total (total_modifyGet _)

theorem atomic_continueMutation (t : Tree) : Atomic (continueMutation t) :=
  .read fun _ => atomic_continueLast t _ _ _

theorem atomic_continueArguments (t : Tree) : Atomic (continueArguments t) :=
  .read fun _ => atomic_continueLast t _ _ _

section Bodies

variable {t : Tree} {parts : List (Part Store)} (hbody : ∀ h output, Part.lowerBody parts h output = pure ())

include hbody

theorem total_lowerBody (h : Address) (output : Option (List String)) : Total (Part.lowerBody parts h output) := by
  rw [hbody]
  exact total_pure ()

theorem atomic_mutation : Atomic (lowerMutation t parts p) := by
  have hline : ∀ mutated, Atomic (do
      let header ← mutationLine mutated p
      Part.lowerBody parts header none) := fun _ =>
    (Atomic.of_refused fun _ => mutationLine_emits).andThen fun _ => total_lowerBody hbody _ _
  unfold lowerMutation
  split
  · exact hline t
  · exact .lookUp hline

theorem atomic_service : Atomic (lowerService t parts p) := by
  have hline : ∀ service, Atomic (do
      if ← targetsValue service then do
        let header ← valueCommand service .expression p
        let output := ((← get).line? header).bind (·.output)
        Part.lowerBody parts header output
      else do
        let call ← service.readRequest
        let line ← service.line
        let header ← invoke service (·.execute line call p)
        Part.lowerBody parts header call.output) := by
    intro service s
    refine Ends.bind (targetsValue_ends.mono (fun targets u hu => ?_) fun _ _ hr => hr.2)
    subst hu
    have hvalue : Atomic (do
        let header ← valueCommand service .expression p
        let output := ((← get).line? header).bind (·.output)
        Part.lowerBody parts header output) :=
      (Atomic.of_refused fun _ => valueCommand_emits (Or.inr rfl)).andThen fun _ v =>
        Ends.bind (ends_get (total_lowerBody hbody _ _ v))
    have hcall : Atomic (do
        let call ← service.readRequest
        let line ← service.line
        let header ← invoke service (·.execute line call p)
        Part.lowerBody parts header call.output) :=
      .read fun call => .lookUp fun _ => (Atomic.of_refused fun _ =>
        invoke_emits (fun _ _ => True) rfl (Or.inr rfl) fun _ _ => trivial).andThen fun _ => total_lowerBody hbody _ _
    cases targets with
    | true => exact hvalue u
    | false => exact hcall u
  unfold lowerService
  split
  · exact hline t
  · exact .lookUp hline

end Bodies

end LowerM

/-! ### Trees -/

/-- The tags of the statements that never have a body. -/
def Tree.plainTags : List String :=
  ["assignment", "absolute_expression", "call_expression", "return_statement", "break_statement", "throw_statement",
    "imports", "arguments", "indented_chain"]

/-- The tags of the calls and mutations, which may have a body. -/
def Tree.commandTags : List String :=
  ["service", "service_block", "mutation", "mutation_block"]

theorem Part.lowerBody_of_none {t : Tree} (h : t.child? "nested_block" = none) (header : Address)
    (output : Option (List String)) :
    Part.lowerBody (t.subtrees.map fun c => (⟨c, c.lower⟩ : Part Store)) header output = pure () := by
  have hfind : (t.subtrees.map fun c => (⟨c, c.lower⟩ : Part Store)).find? (·.tree.tag == "nested_block") = none := by
    rw [List.find?_map, Option.map_eq_none_iff]
    exact h
  rw [Part.lowerBody, hfind]

/-- A statement that never has a body, or that has none, leaves the store as it was if it fails: nothing of it is
    kept, neither lines nor names nor registered services. -/
theorem lower_failed_unchanged {t : Tree} {p : Option Address} {s u : Store} {d : Diagnostic}
    (ht : t.tag ∈ Tree.plainTags ∨ t.tag ∈ Tree.commandTags ∧ t.child? "nested_block" = none)
    (h : t.lower p s = .error d u) : u = s := by
  suffices hatomic : LowerM.Atomic (t.lower p) from (hatomic s).of_error h
  rw [t.lower_eq]
  unfold LowerM.statement
  rcases ht with ht | ⟨ht, hbody⟩
  · simp only [Tree.plainTags, List.mem_cons, List.not_mem_nil, or_false] at ht
    rcases ht with ht | ht | ht | ht | ht | ht | ht | ht | ht <;> rw [ht]
    · exact LowerM.atomic_assignment t
    · exact LowerM.atomic_expression t
    · exact LowerM.atomic_call t
    · exact LowerM.atomic_return t
    · exact LowerM.atomic_break t
    · exact LowerM.atomic_throw t
    · exact LowerM.atomic_import t
    · exact LowerM.atomic_continueArguments t
    · exact LowerM.atomic_continueMutation t
  · have hlower := Part.lowerBody_of_none hbody
    simp only [Tree.commandTags, List.mem_cons, List.not_mem_nil, or_false] at ht
    rcases ht with ht | ht | ht | ht <;> rw [ht]
    · exact LowerM.atomic_service hlower
    · exact LowerM.atomic_service hlower
    · exact LowerM.atomic_mutation hlower
    · exact LowerM.atomic_mutation hlower

/-- In the body of a branch, the result of a service whose name has a dot is to be returned. -/
theorem lower_failed_unchanged_return :
    ∃ (s u : Store) (d : Diagnostic),
      (Shape.returnStatement (some (Shape.service "db.main" none [] [] 2)) 2).lower (some ⟨"1"⟩) s = .error d u ∧
      s.last? = some ⟨"1"⟩ ∧ d.code = .serviceName ∧ u = s := by
  let s : Store := (({} : Store).append .if_ 1 {}).2
  obtain ⟨d, u, hrun, hcode⟩ : ∃ d u, (Shape.returnStatement (some (Shape.service "db.main" none [] [] 2)) 2).lower
      (some ⟨"1"⟩) s = .error d u ∧ d.code = .serviceName := by
    apply Exists.intro
    apply Exists.intro
    refine ⟨?_, ?_⟩ <;> rfl
  exact ⟨s, u, d, hrun, rfl, hcode, lower_failed_unchanged (Or.inl (by decide)) hrun⟩

end Flowline
