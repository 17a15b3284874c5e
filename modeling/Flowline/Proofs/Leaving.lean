import Flowline.Proofs.Bracketing
import Flowline.Proofs.Grammar
import Flowline.Proofs.Layout
import Flowline.Tree.Shape

/-! Where `return` and `break` stand. Lowering asks only that they stand in some body, not whose body it is.
    The lines that leave a body come from the statements of the tree that do, in order, and stand in the same
    kinds of body. So it can be read off the tree whether each `return` leaves a function and each `break` a
    loop. -/

namespace Flowline

/-! ### Leaving statements -/

/-- Whether a line with this method leaves the body that it stands in. -/
def Method.leaves : Method → Bool
  | .return_ | .break_ => true
  | _ => false

/-- The kinds of body around a statement, as far as they can be left. -/
structure Surroundings where
  inFunction : Bool := false
  inLoop : Bool := false
deriving DecidableEq

/-- The surroundings in the body of a header with this method. -/
def Surroundings.under (a : Surroundings) (m : Method) : Surroundings where
  inFunction := a.inFunction || m == .function
  inLoop := a.inLoop || m == .for_ || m == .while_

theorem Surroundings.under_eq (a : Surroundings) {m : Method} (hm : m ∉ [.function, .for_, .while_]) : a.under m = a := by
  simp only [List.mem_cons, List.not_mem_nil, or_false, not_or] at hm
  obtain ⟨hf, hfor, hwhile⟩ := hm
  rw [Surroundings.under, beq_false_of_ne hf, beq_false_of_ne hfor, beq_false_of_ne hwhile]
  simp

theorem Surroundings.under_function (a : Surroundings) : a.under .function = { a with inFunction := true } := by
  obtain ⟨inFunction, inLoop⟩ := a
  cases inFunction <;> cases inLoop <;> rfl

theorem Surroundings.under_loop (a : Surroundings) {m : Method} (hm : m = .for_ ∨ m = .while_) :
    a.under m = { a with inLoop := true } := by
  obtain ⟨inFunction, inLoop⟩ := a
  rcases hm with rfl | rfl <;> cases inFunction <;> cases inLoop <;> rfl

/-- A way to leave a body: by `return` or `break`, and from what surroundings. -/
structure Leave where
  method : Method
  around : Surroundings
deriving DecidableEq

/-- `return` leaves a function, and `break` leaves a loop. -/
def Leave.isPlaced (x : Leave) : Bool :=
  if x.method = .return_ then x.around.inFunction else x.around.inLoop

namespace Tree

mutual

/-- The statements at and below a tree that leave a body, in the order in which they are lowered. -/
def leaves : Tree → Surroundings → List Leave
  | ⟨tag, children⟩, a =>
    match Statement.ofTag? tag with
    | some .container => leavesOfEach (fun _ => true) children a
    | some .return_ => [⟨.return_, a⟩]
    | some .break_ => [⟨.break_, a⟩]
    | some .function => leavesOfFirst "nested_block" children { a with inFunction := true }
    | some .foreach | some .while_ => leavesOfFirst "nested_block" children { a with inLoop := true }
    | some .if_ =>
      leavesOfFirst "nested_block" children a ++ leavesOfEach (· == "elseif_block") children a ++
        leavesOfFirst "else_block" children a
    | some .try_ =>
      leavesOfFirst "nested_block" children a ++ leavesOfFirst "catch_block" children a ++
        leavesOfFirst "finally_block" children a
    | some .service | some .mutation | some .when | some .elseIf | some .else_ | some .catch_ | some .finally_ =>
      leavesOfFirst "nested_block" children a
    | _ => []

/-- The leaving statements in the first of these children with a tag. -/
def leavesOfFirst (tag : String) : List Child → Surroundings → List Leave
  | [], _ => []
  | .token _ :: rest, a => leavesOfFirst tag rest a
  | .tree t :: rest, a => if t.tag == tag then t.leaves a else leavesOfFirst tag rest a

/-- The leaving statements in all of these children whose tag is wanted. -/
def leavesOfEach (keep : String → Bool) : List Child → Surroundings → List Leave
  | [], _ => []
  | .token _ :: rest, a => leavesOfEach keep rest a
  | .tree t :: rest, a => (if keep t.tag then t.leaves a else []) ++ leavesOfEach keep rest a

end

theorem leavesOfFirst_eq (tag : String) (cs : List Child) (a : Surroundings) :
    leavesOfFirst tag cs a = (((cs.filterMap Child.tree?).find? (·.tag == tag)).map (·.leaves a)).getD [] := by
  induction cs with
  | nil => rfl
  | cons c cs ih =>
    cases c with
    | token => exact ih
    | tree t => by_cases ht : (t.tag == tag) = true <;> simp [leavesOfFirst, Child.tree?, ht, ih]

theorem leavesOfEach_eq (keep : String → Bool) (cs : List Child) (a : Surroundings) :
    leavesOfEach keep cs a = ((cs.filterMap Child.tree?).filter (keep ·.tag)).flatMap (·.leaves a) := by
  induction cs with
  | nil => rfl
  | cons c cs ih =>
    cases c with
    | token => exact ih
    | tree t => by_cases ht : keep t.tag = true <;> simp [leavesOfEach, Child.tree?, ht, ih]

end Tree

/-! ### Lines that leave -/

/-- The kinds of body around the lines under a parent. -/
inductive Surrounds (ls : List Line) : Option Address → Surroundings → Prop
  | top : Surrounds ls none {}
  | under {l : Line} {a : Surroundings} (hl : l ∈ ls) (h : Surrounds ls l.parent a) :
      Surrounds ls (some l.address) (a.under l.method)

/-- The line leaves a body in this way. -/
structure Line.LeavesAs (ls : List Line) (x : Leave) (l : Line) : Prop where
  method : l.method = x.method
  inside : l.parent.isSome = true
  around : Surrounds ls l.parent x.around

theorem Line.Amended.method {l l' : Line} (h : l.Amended l') : l'.method = l.method := by rw [h]

theorem Surrounds.appends {s t : Store} {p : Option Address} {a : Surroundings} (h : Surrounds s.lines p a)
    (ht : s.Appends t) : Surrounds t.lines p a := by
  obtain ⟨old, new, hlines, hold⟩ := ht
  induction h with
  | top => exact .top
  | @under l a hl _ ih =>
    obtain ⟨l', hl', hr⟩ := forall₂_mem_left hold l hl
    rw [← hr.parent] at ih
    rw [← hr.address, ← hr.method]
    exact .under (hlines ▸ List.mem_append_left _ hl') ih

namespace Store

/-- From `s` to `t` lines were appended, and those that leave a body do it in these ways. -/
def LeavesBy (s t : Store) (xs : List Leave) : Prop :=
  ∃ old new, t.lines = old ++ new ∧ List.Forall₂ Line.Amended s.lines old ∧
    List.Forall₂ (Line.LeavesAs t.lines) xs (new.filter (·.method.leaves))

variable {s t u : Store} {xs ys : List Leave}

theorem LeavesBy.appends (h : s.LeavesBy t xs) : s.Appends t := by
  obtain ⟨old, new, hlines, hold, -⟩ := h
  exact ⟨old, new, hlines, hold⟩

theorem LeavesBy.of_amended (h : List.Forall₂ Line.Amended s.lines t.lines) : s.LeavesBy t [] :=
  ⟨t.lines, [], (List.append_nil _).symm, h, .nil⟩

theorem LeavesBy.of_lines (h : t.lines = s.lines) : s.LeavesBy t [] :=
  .of_amended (h ▸ List.forall₂_same.mpr fun _ _ => rfl)

theorem LeavesBy.trans (h : s.LeavesBy t xs) (h' : t.LeavesBy u ys) : s.LeavesBy u (xs ++ ys) := by
  have happends := h'.appends
  obtain ⟨old, new, ht, hold, hxs⟩ := h
  obtain ⟨old', new', hu, hold', hys⟩ := h'
  rw [ht] at hold'
  obtain ⟨zs, ws, hzs, hws, rfl⟩ := forall₂_append_left hold'
  refine ⟨zs, ws ++ new', by rw [hu, List.append_assoc], forall₂_trans Line.Amended.trans hold hzs, ?_⟩
  have hfilter : List.Forall₂ Line.Amended (new.filter (·.method.leaves)) (ws.filter (·.method.leaves)) :=
    List.rel_filter (fun _ _ hr => by simp only [hr.method]) hws
  rw [List.filter_append]
  refine List.rel_append (forall₂_trans (fun x l l' hx hr => ?_) hxs hfilter) hys
  exact ⟨hr.method.trans hx.method, hr.parent ▸ hx.inside, hr.parent ▸ hx.around.appends happends⟩

/-- A line was appended that does not leave. -/
theorem LeavesBy.stay {old : List Line} {k : Line} (hl : t.lines = old ++ [k])
    (hold : List.Forall₂ Line.Amended s.lines old) (hk : k.method.leaves = false) : s.LeavesBy t [] :=
  ⟨old, [k], hl, hold, by simp [hk]⟩

/-- A line was appended that leaves from the surroundings of its parent. -/
theorem LeavesBy.leave {old : List Line} {k : Line} {a : Surroundings} (hl : t.lines = old ++ [k])
    (hold : List.Forall₂ Line.Amended s.lines old) (hk : k.method.leaves = true) (hp : k.parent.isSome = true)
    (ha : Surrounds s.lines k.parent a) : s.LeavesBy t [⟨k.method, a⟩] := by
  refine ⟨old, [k], hl, hold, ?_⟩
  simp only [List.filter_cons, hk, if_true, List.filter_nil]
  exact .cons ⟨rfl, hp, ha.appends ⟨old, [k], hl, hold⟩⟩ .nil

/-- The copy of a line that does not leave does not leave either. -/
theorem LeavesBy.copyLine {k : Line} (hk : k ∈ s.lines) (hm : k.method.leaves = false) (ht : s.Appends t)
    (hkeyed : Keyed t.lines) (ln : UInt32) (parent : Option Address) :
    t.LeavesBy (t.copyLine k.address ln parent).2 [] := by
  obtain ⟨old, new, hl, hold⟩ := ht
  obtain ⟨k', hk', hr⟩ := forall₂_mem_left hold k hk
  rcases t.copyLine_cases k.address ln parent with ⟨-, heq⟩ | ⟨line, hline, heq⟩ <;> rw [heq]
  · exact .of_lines rfl
  · obtain ⟨hmem, haddress⟩ := t.line?_eq_some hline
    have hsame : line = k' := eq_of_address hkeyed hmem (hl ▸ List.mem_append_left _ hk') (haddress.trans hr.address.symm)
    refine .stay rfl (t.amended_linkedTo _ _) ?_
    rw [← hm, ← hr.method, ← hsame]
    rfl

end Store

theorem Method.leaves_iff {m : Method} : m.leaves = true ↔ m = .return_ ∨ m = .break_ := by
  cases m <;> simp [Method.leaves]

theorem Method.leaves_of_opensBody {m : Method} (h : m.opensBody = true) : m.leaves = false := by
  cases m <;> first | rfl | cases h

theorem Method.leaves_of_computes {m : Method} (h : m.computes = true) : m.leaves = false := by
  cases m <;> first | rfl | cases h

/-! ### Statements under a parent -/

/-- Statements under `p`, in surroundings `a`, lead from `s` to `t` and leave in these ways. -/
structure Leaving (p : Option Address) (a : Surroundings) (s : Store) (xs : List Leave) (t : Store) : Prop where
  linked : t.Linked
  leaves : s.LeavesBy t xs
  around : Surrounds t.lines p a

/-- Whatever the surroundings, the action leaves in the ways given for them if it ends. -/
def Leaves (f : Option Address → LowerM Store Unit) (g : Surroundings → List Leave) : Prop :=
  ∀ p a s, s.Linked → Surrounds s.lines p a → (f p).Ends s (fun _ t => Leaving p a s (g a) t) fun _ _ => True

namespace Leaving

variable {p : Option Address} {a : Surroundings} {s t u : Store} {xs ys : List Leave}

theorem start (hs : s.Linked) (ha : Surrounds s.lines p a) : Leaving p a s [] s :=
  ⟨hs, .of_lines rfl, ha⟩

theorem andThen (h : Leaving p a s xs t) (hl : t.LeavesBy u ys) (hu : u.Linked) : Leaving p a s (xs ++ ys) u :=
  ⟨hu, h.leaves.trans hl, h.around.appends hl.appends⟩

theorem quietly (h : Leaving p a s xs t) (hl : t.LeavesBy u []) (hu : u.Linked) : Leaving p a s xs u := by
  have hall := h.andThen hl hu
  rwa [List.append_nil] at hall

theorem emit (h : Leaving p a s xs t) {m : Method} (hm : m.leaves = false) (ln : UInt32) (d : Draft) :
    Leaving p a s xs (t.emit m ln d) :=
  h.quietly (.stay (t.emit_lines m ln d) (t.amended_linkedTo _ _) hm) (h.linked.emit m ln d)

theorem opens (h : Leaving p a s xs t) {header : Address} {names : List String} (ho : Opens p t header names u) :
    Leaving p a s xs u := by
  obtain ⟨old, m, ln, d, hl, hold, -, -, hm, -⟩ := ho.concat h.linked
  exact h.quietly (.stay hl (hold.imp fun _ _ hr => hr.rest) (Method.leaves_of_opensBody hm)) (ho.keeps_linked h.linked)

theorem operand (h : Leaving p a s xs t) {o : Operand} (ho : OperandRead p t o u) : Leaving p a s xs u := by
  cases ho with
  | plain => exact h
  | @computed m ln d he hm =>
    refine h.quietly (.stay (t.nameLast_emit_lines m ln d _) (t.amended_linkedTo _ _) ?_) ((h.linked.emit m ln d).nameLast _)
    exact Method.leaves_of_computes hm

end Leaving

/-- In the body of a header, its method adds to the surroundings. -/
theorem Opens.surrounds {p : Option Address} {s t : Store} {h : Address} {names : List String} {a : Surroundings}
    {m : Method} (ho : Opens p s h names t) (hs : s.Linked) (ha : Surrounds s.lines p a)
    (hm : t.lines.getLast?.map (·.method) = some m) : Surrounds t.lines (some h) (a.under m) := by
  have hafter := ha.appends ho.appends
  obtain ⟨old, m', ln, d, hl, -, rfl, hp, -, -⟩ := ho.concat hs
  rw [hl, List.getLast?_concat] at hm
  obtain rfl := Option.some.inj hm
  rw [← hp] at hafter
  exact .under (l := s.newLine m' ln d) (by simp [hl]) hafter

/-! ### Rows of statements and bodies -/

section Parts

variable {p : Option Address} {a : Surroundings} {s t u : Store} {xs : List Leave} {parts : List (Part Store)}

theorem Leaves.after {f : Option Address → LowerM Store Unit} {g : Surroundings → List Leave} (hf : Leaves f g)
    (h : Leaving p a s xs t) : (f p).Ends t (fun _ u => Leaving p a s (xs ++ g a) u) fun _ _ => True :=
  (hf p a t h.linked h.around).mono (fun _ _ hu => h.andThen hu.leaves hu.linked) fun _ _ h => h

variable (hparts : ∀ part ∈ parts, Leaves part.lower part.tree.leaves)

include hparts

theorem lowerAll_leaves : Leaves (Part.lowerAll parts) fun a => parts.flatMap (·.tree.leaves a) := by
  induction parts with
  | nil => exact fun p a s hs ha => .start hs ha
  | cons part rest ih =>
    intro p a s hs ha
    have hrest := ih fun part' h' => hparts part' (List.mem_cons_of_mem _ h')
    refine LowerM.Ends.bind ((hparts part List.mem_cons_self p a s hs ha).mono (fun _ t ht => ?_) fun _ _ h => h)
    exact hrest.after ht

theorem lowerTagged_leaves (tag : String) :
    Leaves (Part.lowerTagged parts tag) fun a => (parts.filter (·.tree.tag == tag)).flatMap (·.tree.leaves a) :=
  lowerAll_leaves fun part h => hparts part (List.mem_filter.mp h).1

/-- The leaving statements in the first part with a tag. -/
def Part.leavesOfFirst (parts : List (Part Store)) (tag : String) (a : Surroundings) : List Leave :=
  ((parts.find? (·.tree.tag == tag)).map (·.tree.leaves a)).getD []

theorem lowerFirst_leaves (tag : String) : Leaves (Part.lowerFirst parts tag) (Part.leavesOfFirst parts tag) := by
  intro p a s hs ha
  unfold Part.lowerFirst Part.leavesOfFirst
  cases hfind : parts.find? (·.tree.tag == tag) with
  | none => exact .start hs ha
  | some part => exact hparts part (List.mem_of_find?_eq_some hfind) p a s hs ha

theorem lowerBody_leaves {header : Address} {names : List String} {m : Method} {b : Surroundings}
    (h : Leaving p a s xs t) (ho : Opens p t header names u) (hm : u.lines.getLast?.map (·.method) = some m)
    (hb : a.under m = b) (output : Option (List String)) :
    (Part.lowerBody parts header output).Ends u
      (fun _ v => Leaving p a s (xs ++ Part.leavesOfFirst parts "nested_block" b) v) fun _ _ => True := by
  subst hb
  have hu := h.opens ho
  unfold Part.lowerBody Part.leavesOfFirst
  cases hfind : parts.find? (·.tree.tag == "nested_block") with
  | none => exact hu.andThen (.of_lines rfl) hu.linked
  | some body =>
    refine LowerM.Ends.bind (LowerM.ends_modify ?_)
    have hbody := hparts body (List.mem_of_find?_eq_some hfind) (some header) (a.under m)
      (u.openScope header (output.getD [])) (hu.linked.of_lines rfl) (ho.surrounds h.linked h.around hm)
    refine LowerM.Ends.bind (hbody.mono (fun _ v hv => LowerM.ends_modify ?_) fun _ _ h => h)
    exact hu.andThen (u := v.closeScope header) hv.leaves (hv.linked.of_lines rfl)

end Parts

/-! ### Statements -/

section Statements

open LowerM

variable {p : Option Address} {a : Surroundings} {s t u : Store} {xs : List Leave} {parts : List (Part Store)}

theorem lowerAssignment_leaves (tree : Tree) : Leaves (lowerAssignment tree) fun _ => [] := by
  intro p a s hs ha
  unfold lowerAssignment
  refine Ends.bind (ends_liftM_missing (fun target _ => ?_) fun _ => trivial)
  refine Ends.bind (ends_liftM_diagnostic (fun _ _ => ?_) fun _ _ => trivial)
  refine Ends.bind (ends_liftM_malformed (fun path _ => ?_) fun _ => trivial)
  refine Ends.bind (ends_liftM_missing (fun fragment _ => ?_) fun _ => trivial)
  refine Ends.bind (ends_liftM_malformed (fun operand _ => ?_) fun _ => trivial)
  refine Ends.bind (operandLine_emits.mono ?_ fun _ _ _ => trivial)
  rintro _ t ⟨m, ln, d, he, hc, -, rfl⟩
  refine ends_modify ((Leaving.start hs ha).quietly ?_ ((hs.emit m ln d).nameLast path))
  exact .stay (s.nameLast_emit_lines m ln d path) (s.amended_linkedTo _ _) (Method.leaves_of_computes hc)

theorem append_stays {m : Method} {ln : UInt32} {d : Draft} (h : Leaving p a s xs t) (hm : m.leaves = false)
    (hd : d.service = none ∨ m = .call) :
    (do let _ ← append m ln d : LowerM Store Unit).Ends t (fun _ u => Leaving p a s xs u) fun _ _ => True := by
  refine Ends.bind (ends_append (ends_pure ?_))
  rw [← t.emit_of_unregistered hd]
  exact h.emit hm ln d

theorem append_leaves {m : Method} {args : Option (List Value)} {tree : Tree} (h : Leaving p a s xs t)
    (hm : m.leaves = true) (hp : p.isSome = true) :
    (do let _ ← append m (← tree.line) { args, parent := p } : LowerM Store Unit).Ends t
      (fun _ u => Leaving p a s (xs ++ [⟨m, a⟩]) u) fun _ _ => True := by
  refine Ends.bind (ends_liftM_missing (fun ln _ => ?_) fun _ => trivial)
  refine Ends.bind (ends_append (ends_pure (h.andThen ?_ (h.linked.append m ln _))))
  exact .leave (t.append_lines m ln _) (t.amended_linkedTo _ _) hm hp h.around

theorem lowerExpression_leaves (tree : Tree) : Leaves (lowerExpression tree) fun _ => [] := by
  intro p a s hs ha
  unfold lowerExpression
  refine Ends.bind (ends_liftM_missing (fun expression _ => ?_) fun _ => trivial)
  refine Ends.bind (ends_liftM_malformed (fun args _ => ?_) fun _ => trivial)
  refine Ends.bind (ends_liftM_missing (fun ln _ => ?_) fun _ => trivial)
  exact append_stays (.start hs ha) rfl (Or.inl rfl)

theorem lowerReturn_leaves (tree : Tree) : Leaves (lowerReturn tree) fun a => [⟨.return_, a⟩] := by
  intro p a s hs ha
  have hstart := Leaving.start hs ha
  unfold lowerReturn
  refine Ends.bind (ends_liftM_diagnostic (fun _ hp => ?_) fun _ _ => trivial)
  split
  · refine Ends.bind (headerOperand_ends.mono ?_ fun _ _ _ => trivial)
    rintro o u ⟨ho, -⟩
    exact append_leaves (hstart.operand ho) rfl (Tree.ensure_ok hp)
  · exact append_leaves hstart rfl (Tree.ensure_ok hp)

theorem lowerBreak_leaves (tree : Tree) : Leaves (lowerBreak tree) fun a => [⟨.break_, a⟩] := by
  intro p a s hs ha
  unfold lowerBreak
  refine Ends.bind (ends_liftM_diagnostic (fun _ hp => ?_) fun _ _ => trivial)
  exact append_leaves (.start hs ha) rfl (Tree.ensure_ok hp)

theorem lowerThrow_leaves (tree : Tree) : Leaves (lowerThrow tree) fun _ => [] := by
  intro p a s hs ha
  unfold lowerThrow
  refine Ends.bind (ends_liftM_malformed (fun args _ => ?_) fun _ => trivial)
  refine Ends.bind (ends_liftM_missing (fun ln _ => ?_) fun _ => trivial)
  exact append_stays (.start hs ha) rfl (Or.inl rfl)

theorem lowerImport_leaves (tree : Tree) : Leaves (fun _ => lowerImport tree) fun _ => [] := by
  intro p a s hs ha
  unfold lowerImport
  refine Ends.bind (ends_liftM_missing (fun string _ => ?_) fun _ => trivial)
  refine Ends.bind (ends_liftM_missing (fun path _ => ?_) fun _ => trivial)
  refine Ends.bind (ends_liftM_malformed (fun name _ => ?_) fun _ => trivial)
  exact ends_modify ((Leaving.start hs ha).quietly (.of_lines rfl) (hs.of_lines rfl))

theorem continueLast_leaves (place : Tree) (m : Method) (code : Code) (more : List Value) :
    Leaves (fun _ => continueLast place m code more) fun _ => [] := by
  intro p a s hs ha
  unfold continueLast
  refine Ends.bind (ends_modifyGet (ends_liftM_diagnostic (fun _ _ => ?_) fun _ _ => trivial))
  have hlines := s.amended_addArgsToLast m more
  exact (Leaving.start hs ha).quietly (.of_amended hlines) (hs.of_sameLinks (s.sameLinks_addArgsToLast m more))

theorem continueMutation_leaves (tree : Tree) : Leaves (fun _ => continueMutation tree) fun _ => [] := by
  intro p a s hs ha
  refine Ends.bind (ends_liftM_malformed (fun more _ => ?_) fun _ => trivial)
  exact continueLast_leaves _ _ _ more p a s hs ha

theorem continueArguments_leaves (tree : Tree) : Leaves (fun _ => continueArguments tree) fun _ => [] := by
  intro p a s hs ha
  refine Ends.bind (ends_liftM_malformed (fun arguments _ => ?_) fun _ => trivial)
  exact continueLast_leaves _ _ _ _ p a s hs ha

theorem callLine_leaves (tree : Tree) : Leaves (fun p => do let _ ← callLine tree p) fun _ => [] := by
  intro p a s hs ha
  refine Ends.bind (callLine_emits.mono ?_ fun _ _ _ => trivial)
  rintro _ t ⟨m, ln, d, he, rfl, -, rfl⟩
  exact ends_pure ((Leaving.start hs ha).emit rfl ln d)

end Statements

/-! ### Blocks -/

section Blocks

open LowerM

variable {p : Option Address} {a : Surroundings} {s t u : Store} {parts : List (Part Store)}

theorem last_append (s : Store) (m : Method) (ln : UInt32) (d : Draft) :
    (s.append m ln d).2.lines.getLast?.map (·.method) = some m := by
  rw [s.append_lines, List.getLast?_concat]
  rfl

theorem last_emit (s : Store) (m : Method) (ln : UInt32) (d : Draft) :
    (s.emit m ln d).lines.getLast?.map (·.method) = some m := by
  rw [s.emit_lines, List.getLast?_concat]
  rfl

theorem last_linkExit (s : Store) (a : Address) :
    (s.linkExit a).lines.getLast?.map (·.method) = s.lines.getLast?.map (·.method) := by
  have hmap := forall₂_map (f := Line.method) (fun hr => by rw [hr]) (s.forall₂_linkExit a)
  rw [← List.getLast?_map, ← List.getLast?_map, hmap]

variable (hparts : ∀ part ∈ parts, Leaves part.lower part.tree.leaves)

include hparts

theorem lowerService_leaves (tree : Tree) :
    Leaves (lowerService tree parts) (Part.leavesOfFirst parts "nested_block") := by
  intro p a s hs ha
  unfold lowerService
  have hrest : ∀ service : Tree, Ends (do
      if ← targetsValue service then do
        let header ← valueCommand service .expression p
        let output := ((← get).line? header).bind (·.output)
        Part.lowerBody parts header output
      else do
        let call ← service.readRequest
        let line ← service.line
        let header ← invoke service (·.execute line call p)
        Part.lowerBody parts header call.output) s
      (fun _ t => Leaving p a s (Part.leavesOfFirst parts "nested_block" a) t) fun _ _ => True := by
    intro service
    refine Ends.bind (targetsValue_ends.mono (fun b t ht => ?_) fun _ _ _ => trivial)
    subst ht
    cases b with
    | true =>
      refine Ends.bind ((valueCommand_emits (Or.inr rfl)).mono ?_ fun _ _ _ => trivial)
      rintro h u ⟨m, ln, d, he, hmethod, rfl, rfl⟩
      have hopens : m.opensBody = true ∧ m ∉ [.function, .for_, .while_] := by
        rcases hmethod with rfl | rfl <;> decide
      refine Ends.bind (ends_get ?_)
      exact lowerBody_leaves hparts (.start hs ha) (.plain he hopens.1) (last_emit _ _ _ _) (a.under_eq hopens.2) _
    | false =>
      refine Ends.bind (ends_liftM_malformed (fun r _ => ?_) fun _ => trivial)
      refine Ends.bind (ends_liftM_missing (fun ln _ => ?_) fun _ => trivial)
      refine Ends.bind ((invoke_emits (fun m _ => m.opensBody = true ∧ m ∉ [.function, .for_, .while_]) rfl (Or.inr rfl)
        ?_).mono ?_ fun _ _ _ => trivial)
      · intro d _
        split <;> decide
      · rintro h u ⟨m, ln, d, he, hopens, rfl, rfl⟩
        exact lowerBody_leaves hparts (.start hs ha) (.plain he hopens.1) (last_emit _ _ _ _) (a.under_eq hopens.2) _
  split
  · exact Ends.bind (ends_pure (hrest tree))
  · refine Ends.bind (ends_liftM_missing (fun service _ => ?_) fun _ => trivial)
    exact hrest service

theorem lowerMutation_leaves (tree : Tree) :
    Leaves (lowerMutation tree parts) (Part.leavesOfFirst parts "nested_block") := by
  intro p a s hs ha
  unfold lowerMutation
  have hrest : ∀ mutated : Tree, Ends (do
      let header ← mutationLine mutated p
      Part.lowerBody parts header none) s
      (fun _ t => Leaving p a s (Part.leavesOfFirst parts "nested_block" a) t) fun _ _ => True := by
    intro mutated
    refine Ends.bind (mutationLine_emits.mono ?_ fun _ _ _ => trivial)
    rintro h u ⟨m, ln, d, he, ⟨rfl, hd⟩, rfl, rfl⟩
    exact lowerBody_leaves hparts (.start hs ha) (.plain he rfl) (last_emit _ _ _ _) (a.under_eq (by decide)) none
  split
  · exact Ends.bind (ends_pure (hrest tree))
  · refine Ends.bind (ends_liftM_missing (fun mutated _ => ?_) fun _ => trivial)
    exact hrest mutated

theorem lowerWhen_leaves (tree : Tree) : Leaves (lowerWhen tree parts) (Part.leavesOfFirst parts "nested_block") := by
  intro p a s hs ha
  unfold lowerWhen
  refine Ends.bind (ends_liftM_missing (fun ln _ => ?_) fun _ => trivial)
  split
  · refine Ends.bind (ends_liftM_malformed (fun r _ => ?_) fun _ => trivial)
    refine Ends.bind ((invoke_emits (fun m _ => m = .when) rfl (Or.inl rfl) fun _ _ => rfl).mono ?_ fun _ _ _ => trivial)
    rintro h u ⟨m, ln, d, he, rfl, rfl, rfl⟩
    exact lowerBody_leaves hparts (.start hs ha) (.plain he rfl) (last_emit _ _ _ _) (a.under_eq (by decide)) _
  · refine Ends.bind (ends_liftM_missing (fun path _ => ?_) fun _ => trivial)
    refine Ends.bind (ends_liftM_malformed (fun handle _ => ?_) fun _ => trivial)
    refine Ends.bind (ends_append ?_)
    exact lowerBody_leaves hparts (.start hs ha) (opens_append .listen (Or.inl rfl) _ rfl) (last_append _ _ _ _)
      (a.under_eq (by decide)) _

theorem lowerIf_leaves (tree : Tree) : Leaves (lowerIf tree parts) fun a =>
    Part.leavesOfFirst parts "nested_block" a ++
      (parts.filter (·.tree.tag == "elseif_block")).flatMap (·.tree.leaves a) ++
      Part.leavesOfFirst parts "else_block" a := by
  intro p a s hs ha
  unfold lowerIf
  refine Ends.bind (ends_liftM_missing (fun statement _ => ?_) fun _ => trivial)
  refine Ends.bind (headerOperand_ends.mono ?_ fun _ _ _ => trivial)
  rintro o u ⟨ho, -⟩
  have hu := (Leaving.start hs ha).operand ho
  refine Ends.bind (ends_liftM_missing (fun ln _ => ?_) fun _ => trivial)
  refine Ends.bind (ends_append ?_)
  have hemits : Emits u p .if_ { args := some o.args, parent := p } := .test (Or.inl rfl)
  have hopens := opens_append hemits (Or.inl rfl) ln rfl
  have hbody := lowerBody_leaves hparts hu hopens (last_append _ _ _ _) (a.under_eq (by decide)) none
  refine Ends.bind (hbody.mono (fun _ v hv => ?_) fun _ _ h => h)
  refine Ends.bind (((lowerTagged_leaves hparts "elseif_block").after hv).mono (fun _ w hw => ?_) fun _ _ h => h)
  exact (lowerFirst_leaves hparts "else_block").after hw

theorem lowerElseIf_leaves (tree : Tree) :
    Leaves (lowerElseIf tree parts) (Part.leavesOfFirst parts "nested_block") := by
  intro p a s hs ha
  unfold lowerElseIf
  refine Ends.bind (ends_liftM_missing (fun statement _ => ?_) fun _ => trivial)
  refine Ends.bind (headerOperand_ends.mono ?_ fun _ _ _ => trivial)
  rintro o u ⟨ho, -⟩
  have hu := (Leaving.start hs ha).operand ho
  refine Ends.bind (ends_liftM_missing (fun ln _ => ?_) fun _ => trivial)
  refine Ends.bind (ends_append (Ends.bind (ends_modify ?_)))
  exact lowerBody_leaves hparts hu (opens_linked (.test (Or.inr (Or.inl rfl))) rfl (Or.inl rfl) (operandRead_target ho ln))
    ((last_linkExit _ _).trans (last_append _ _ _ _)) (a.under_eq (by decide)) none

theorem lowerLastBranch_leaves {m : Method} (hm : m = .else_ ∨ m = .finally_) (tree : Tree) :
    Leaves (lowerLastBranch m tree parts) (Part.leavesOfFirst parts "nested_block") := by
  intro p a s hs ha
  unfold lowerLastBranch
  refine Ends.bind (ends_liftM_missing (fun ln _ => ?_) fun _ => trivial)
  refine Ends.bind (ends_append (Ends.bind (ends_modify ?_)))
  have hemits : Emits s p m { parent := p } := .bare (by rcases hm with rfl | rfl <;> simp)
  have hopens : m.opensBody = true ∧ m ∉ [.function, .for_, .while_] := by rcases hm with rfl | rfl <;> decide
  exact lowerBody_leaves hparts (.start hs ha) (opens_linked hemits hopens.1 (Or.inl rfl) (Or.inl rfl))
    ((last_linkExit _ _).trans (last_append _ _ _ _)) (a.under_eq hopens.2) none

theorem lowerForeach_leaves (tree : Tree) :
    Leaves (lowerForeach tree parts) fun a => Part.leavesOfFirst parts "nested_block" { a with inLoop := true } := by
  intro p a s hs ha
  unfold lowerForeach
  refine Ends.bind (ends_liftM_missing (fun statement _ => ?_) fun _ => trivial)
  split
  · refine Ends.bind (ends_pure ?_)
    refine Ends.bind (ends_liftM_malformed (fun value _ => ?_) fun _ => trivial)
    refine Ends.bind (ends_liftM_missing (fun ln _ => ?_) fun _ => trivial)
    refine Ends.bind (ends_append ?_)
    exact lowerBody_leaves hparts (.start hs ha) (opens_append .iterate (Or.inl rfl) _ rfl) (last_append _ _ _ _)
      (a.under_loop (Or.inl rfl)) _
  · exact Ends.bind (ends_throw trivial)

theorem lowerTry_leaves (tree : Tree) : Leaves (lowerTry tree parts) fun a =>
    Part.leavesOfFirst parts "nested_block" a ++ Part.leavesOfFirst parts "catch_block" a ++
      Part.leavesOfFirst parts "finally_block" a := by
  intro p a s hs ha
  unfold lowerTry
  refine Ends.bind (ends_liftM_missing (fun ln _ => ?_) fun _ => trivial)
  refine Ends.bind (ends_append ?_)
  have hemits : Emits s p .try_ { parent := p } := .bare (Or.inr (Or.inl rfl))
  have hopens := opens_append hemits (Or.inl rfl) ln rfl
  have hbody := lowerBody_leaves hparts (.start hs ha) hopens (last_append _ _ _ _) (a.under_eq (by decide)) none
  refine Ends.bind (hbody.mono (fun _ v hv => ?_) fun _ _ h => h)
  refine Ends.bind (((lowerFirst_leaves hparts "catch_block").after hv).mono (fun _ w hw => ?_) fun _ _ h => h)
  exact (lowerFirst_leaves hparts "finally_block").after hw

theorem lowerCatch_leaves (tree : Tree) : Leaves (lowerCatch tree parts) (Part.leavesOfFirst parts "nested_block") := by
  intro p a s hs ha
  unfold lowerCatch
  refine Ends.bind (ends_liftM_missing (fun statement _ => ?_) fun _ => trivial)
  refine Ends.bind (ends_liftM_missing (fun ln _ => ?_) fun _ => trivial)
  refine Ends.bind (ends_append (Ends.bind (ends_modify ?_)))
  exact lowerBody_leaves hparts (.start hs ha) (opens_linked .rescue rfl (Or.inl rfl) (Or.inl rfl))
    ((last_linkExit _ _).trans (last_append _ _ _ _)) (a.under_eq (by decide)) _

theorem lowerWhile_leaves (tree : Tree) :
    Leaves (lowerWhile tree parts) fun a => Part.leavesOfFirst parts "nested_block" { a with inLoop := true } := by
  intro p a s hs ha
  unfold lowerWhile
  refine Ends.bind (ends_liftM_missing (fun statement _ => ?_) fun _ => trivial)
  refine Ends.bind (ends_liftM_missing (fun ln _ => ?_) fun _ => trivial)
  refine Ends.bind (headerOperand_ends.mono ?_ fun _ _ _ => trivial)
  rintro o u ⟨ho, -⟩
  have hu := (Leaving.start hs ha).operand ho
  refine Ends.bind (ends_append ?_)
  have hemits : Emits u p .while_ { args := some o.args, parent := p } := .test (Or.inr (Or.inr rfl))
  have hopens := opens_append hemits (Or.inl rfl) ln rfl
  have hbody := lowerBody_leaves hparts (.start hu.linked hu.around) hopens (last_append _ _ _ _)
    (a.under_loop (Or.inr rfl)) none
  refine Ends.bind (hbody.mono (fun _ v hv => ?_) fun _ _ h => h)
  have hend := hu.andThen hv.leaves hv.linked
  cases ho with
  | plain => exact ends_pure hend
  | @computed m ln' d he hm =>
    -- The line that computes the condition is copied at the end of the body.
    have hmem : { s.newLine m ln' d with name := some [.name (s.fresh ln').operandName] } ∈
        ((s.emit m ln' d).nameLast [.name (s.fresh ln').operandName]).lines := by
      simp [s.nameLast_emit_lines]
    have hcopy := Store.LeavesBy.copyLine hmem (Method.leaves_of_computes hm) hv.leaves.appends hv.linked.keyed ln
    exact Ends.bind (ends_modifyGet (ends_pure (hend.quietly (hcopy _) (hv.linked.copyLine _ _ _))))

theorem lowerFunction_leaves (tree : Tree) :
    Leaves (lowerFunction tree parts) fun a => Part.leavesOfFirst parts "nested_block" { a with inFunction := true } := by
  intro p a s hs ha
  unfold lowerFunction
  refine Ends.bind (ends_liftM_missing (fun statement _ => ?_) fun _ => trivial)
  refine Ends.bind (ends_liftM_malformed (fun token _ => ?_) fun _ => trivial)
  refine Ends.bind (ends_liftM_malformed (fun parameters _ => ?_) fun _ => trivial)
  refine Ends.bind (ends_liftM_missing (fun returns _ => ?_) fun _ => trivial)
  refine Ends.bind (ends_liftM_missing (fun ln _ => ?_) fun _ => trivial)
  refine Ends.bind (ends_append ?_)
  have hrest : ∀ returns, Ends (lowerDeclared parts statement token.value (s.fresh ln) parameters)
      (s.emit .function ln (.declaration token.value parameters returns p))
      (fun _ t => Leaving p a s (Part.leavesOfFirst parts "nested_block" { a with inFunction := true }) t)
      fun _ _ => True := by
    intro returns
    have hfunction : (s.emit .function ln (.declaration token.value parameters returns p)).function? token.value =
        s.function? token.value := by
      rw [Store.function?, Store.emit_functions, Store.function?]
    refine Ends.bind (ends_declareFunction ?_)
    cases hn : s.function? token.value with
    | none =>
      have hopens : Opens p s (s.fresh ln) (parameters.filterMap (·.name)) ((s.emit .function ln
          (.declaration token.value parameters returns p)).declareFunction token.value (s.fresh ln)).2 := .declared hn
      have hlast := last_emit s .function ln (.declaration token.value parameters returns p)
      rw [← Store.declareFunction_lines _ token.value (s.fresh ln)] at hlast
      have hbody := lowerBody_leaves hparts (.start hs ha) hopens hlast a.under_function
        (some (parameters.filterMap (·.name)))
      simp only [Store.declareFunction, hfunction, hn] at hbody ⊢
      exact hbody
    | some previous =>
      simp only [Store.declareFunction, hfunction, hn]
      exact Ends.bind (ends_throw trivial)
  cases returns with
  | none =>
    have hnone := hrest none
    rw [s.emit_of_unregistered (Or.inl rfl)] at hnone
    exact hnone
  | some names =>
    refine Ends.bind (ends_outputLast ?_)
    rw [declared_outputLast]
    exact hrest (some names)

end Blocks

/-! ### Whole trees -/

section Trees

open LowerM

theorem Part.leavesOfFirst_subtrees (t : Tree) (tag : String) :
    Part.leavesOfFirst (t.subtrees.map fun c => ⟨c, c.lower⟩) tag = Tree.leavesOfFirst tag t.children := by
  funext a
  rw [Tree.leavesOfFirst_eq, Part.leavesOfFirst, List.find?_map, Option.map_map]
  rfl

theorem Part.leavesOfEach_subtrees (t : Tree) (keep : String → Bool) (a : Surroundings) :
    ((t.subtrees.map fun c => (⟨c, c.lower⟩ : Part Store)).filter (keep ·.tree.tag)).flatMap (·.tree.leaves a) =
      Tree.leavesOfEach keep t.children a := by
  rw [Tree.leavesOfEach_eq, List.filter_map, List.flatMap_map]
  rfl

theorem statement_leaves (t : Tree) (hparts : ∀ c ∈ t.subtrees, Leaves c.lower c.leaves) :
    Leaves (statement t (t.subtrees.map fun c => ⟨c, c.lower⟩)) t.leaves := by
  have hparts : ∀ part ∈ t.subtrees.map (fun c => (⟨c, c.lower⟩ : Part Store)), Leaves part.lower part.tree.leaves := by
    intro part hpart
    obtain ⟨c, hc, rfl⟩ := List.mem_map.mp hpart
    exact hparts c hc
  have hfirst := Part.leavesOfFirst_subtrees t
  have heach := Part.leavesOfEach_subtrees t
  obtain ⟨tag, children⟩ := t
  intro p a s hs ha
  rw [Tree.leaves]
  unfold statement
  cases Statement.ofTag? tag with
  | none => exact ends_throw trivial
  | some kind =>
    cases kind with
    | container =>
      have hall := lowerAll_leaves hparts p a s hs ha
      have hrow := heach (fun _ => true) a
      rw [List.filter_true] at hrow
      simp only [hrow] at hall
      exact hall
    | assignment => exact lowerAssignment_leaves _ p a s hs ha
    | absoluteExpression => exact lowerExpression_leaves _ p a s hs ha
    | service => exact hfirst _ ▸ lowerService_leaves hparts _ p a s hs ha
    | mutation => exact hfirst _ ▸ lowerMutation_leaves hparts _ p a s hs ha
    | chain => exact continueMutation_leaves _ p a s hs ha
    | arguments => exact continueArguments_leaves _ p a s hs ha
    | call => exact callLine_leaves _ p a s hs ha
    | when => exact hfirst _ ▸ lowerWhen_leaves hparts _ p a s hs ha
    | if_ =>
      have hif := lowerIf_leaves hparts ⟨tag, children⟩ p a s hs ha
      simp only [heach (· == "elseif_block"), hfirst] at hif
      exact hif
    | elseIf => exact hfirst _ ▸ lowerElseIf_leaves hparts _ p a s hs ha
    | else_ => exact hfirst _ ▸ lowerLastBranch_leaves hparts (Or.inl rfl) _ p a s hs ha
    | foreach => exact hfirst _ ▸ lowerForeach_leaves hparts _ p a s hs ha
    | while_ => exact hfirst _ ▸ lowerWhile_leaves hparts _ p a s hs ha
    | try_ =>
      have htry := lowerTry_leaves hparts ⟨tag, children⟩ p a s hs ha
      simp only [hfirst] at htry
      exact htry
    | catch_ => exact hfirst _ ▸ lowerCatch_leaves hparts _ p a s hs ha
    | finally_ => exact hfirst _ ▸ lowerLastBranch_leaves hparts (Or.inr rfl) _ p a s hs ha
    | function => exact hfirst _ ▸ lowerFunction_leaves hparts _ p a s hs ha
    | return_ => exact lowerReturn_leaves _ p a s hs ha
    | break_ => exact lowerBreak_leaves _ p a s hs ha
    | throw => exact lowerThrow_leaves _ p a s hs ha
    | import_ => exact lowerImport_leaves _ p a s hs ha

theorem Tree.lower_leaves (t : Tree) : Leaves t.lower t.leaves := by
  induction t using subtreeInduction with
  | step t ih =>
    rw [Tree.lower_eq]
    exact statement_leaves t ih

end Trees

/-! ### Headers around a line -/

/-- One of the headers around the lines under `p` has one of these methods. -/
def Encloses (ls : List Line) (ms : List Method) (p : Option Address) : Prop :=
  ∃ a k, p = some a ∧ k ∈ ls ∧ Within ls a k.address ∧ k.method ∈ ms

section Encloses

variable {ls : List Line} {ms : List Method} {p : Option Address} {a : Surroundings}

theorem encloses_iff (hk : Keyed ls) {l : Line} (hl : l ∈ ls) :
    Encloses ls ms (some l.address) ↔ l.method ∈ ms ∨ Encloses ls ms l.parent := by
  constructor
  · rintro ⟨b, k, hb, hmem, hw, hm⟩
    obtain rfl := Option.some.inj hb
    generalize hla : l.address = c at hw
    cases hw with
    | refl =>
      obtain rfl := eq_of_address hk hl hmem hla
      exact Or.inl hm
    | up hx hparent hw =>
      obtain rfl := eq_of_address hk hl hx hla
      exact Or.inr ⟨_, k, hparent, hmem, hw, hm⟩
  · rintro (hm | ⟨b, k, hb, hmem, hw, hm⟩)
    · exact ⟨_, l, rfl, hl, .refl _, hm⟩
    · exact ⟨_, k, rfl, hmem, .up hl hb hw, hm⟩

theorem Surrounds.inFunction_iff (h : Surrounds ls p a) (hk : Keyed ls) :
    a.inFunction = true ↔ Encloses ls [.function] p := by
  induction h with
  | top => simp [Encloses]
  | under hl _ ih =>
    rw [encloses_iff hk hl, ← ih]
    simp [Surroundings.under, or_comm]

theorem Surrounds.inLoop_iff (h : Surrounds ls p a) (hk : Keyed ls) :
    a.inLoop = true ↔ Encloses ls [.for_, .while_] p := by
  induction h with
  | top => simp [Encloses]
  | under hl _ ih =>
    rw [encloses_iff hk hl, ← ih]
    simp [Surroundings.under, or_comm, or_left_comm]

/-- A line leaves what it should exactly if the way in which it leaves is in its place. -/
theorem Line.LeavesAs.isPlaced_iff {x : Leave} {l : Line} (h : l.LeavesAs ls x) (hk : Keyed ls)
    (hl : l.method.leaves = true) : x.isPlaced = true ↔
      (l.method = .return_ → Encloses ls [.function] l.parent) ∧
        (l.method = .break_ → Encloses ls [.for_, .while_] l.parent) := by
  rw [Leave.isPlaced, ← h.method, ← h.around.inFunction_iff hk, ← h.around.inLoop_iff hk]
  rcases Method.leaves_iff.mp hl with hm | hm <;> simp [hm]

end Encloses

/-- The lines that leave a body, in order, are those of the leaving statements of the tree. -/
theorem compile_leaves {tree : Tree} {m : Manifest} (h : compile tree = .ok m) :
    Keyed m.lines ∧ List.Forall₂ (Line.LeavesAs m.lines) (tree.leaves {}) (m.lines.filter (·.method.leaves)) := by
  unfold compile at h
  split at h
  · rename_i s hs
    obtain rfl := Except.ok.inj h
    have hleaving := (tree.lower_leaves none {} {} Store.linked_empty .top).of_ok hs
    obtain ⟨old, new, hlines, hold, hnew⟩ := hleaving.leaves
    obtain rfl := List.forall₂_nil_left_iff.mp hold
    obtain rfl : s.lines = new := hlines
    exact ⟨hleaving.linked.keyed, hnew⟩
  · cases h

/-- Each `return` and each `break` of a program stands in some body. Every `return` is in a function and every
    `break` in a loop exactly if they are so in the tree. -/
theorem leaving_lines_placed_iff {tree : Tree} {m : Manifest} (h : compile tree = .ok m) :
    (∀ l ∈ m.lines, l.method = .return_ ∨ l.method = .break_ → l.parent.isSome = true) ∧
    (((∀ l ∈ m.lines, l.method = .return_ → Encloses m.lines [.function] l.parent) ∧
        ∀ l ∈ m.lines, l.method = .break_ → Encloses m.lines [.for_, .while_] l.parent) ↔
      ∀ x ∈ tree.leaves {}, x.isPlaced = true) := by
  obtain ⟨hk, hleaves⟩ := compile_leaves h
  have hline : ∀ l ∈ m.lines, l.method = .return_ ∨ l.method = .break_ →
      ∃ x ∈ tree.leaves {}, l.LeavesAs m.lines x := fun l hl hm =>
    forall₂_mem_right hleaves l (List.mem_filter.mpr ⟨hl, Method.leaves_iff.mpr hm⟩)
  refine ⟨fun l hl hm => ?_, fun hplaced x hx => ?_, fun hplaced => ⟨fun l hl hm => ?_, fun l hl hm => ?_⟩⟩
  · obtain ⟨x, -, hx⟩ := hline l hl hm
    exact hx.inside
  · obtain ⟨l, hl, hxl⟩ := forall₂_mem_left hleaves x hx
    obtain ⟨hmem, hm⟩ := List.mem_filter.mp hl
    exact (hxl.isPlaced_iff hk hm).mpr ⟨hplaced.1 l hmem, hplaced.2 l hmem⟩
  · obtain ⟨x, hx, hxl⟩ := hline l hl (Or.inl hm)
    exact ((hxl.isPlaced_iff hk (Method.leaves_iff.mpr (Or.inl hm))).mp (hplaced x hx)).1 hm
  · obtain ⟨x, hx, hxl⟩ := hline l hl (Or.inr hm)
    exact ((hxl.isPlaced_iff hk (Method.leaves_iff.mpr (Or.inr hm))).mp (hplaced x hx)).2 hm

/-- A function with a loop that is left from a branch, and a `return` after the loop. -/
def Sample.search : Tree :=
  Shape.script [
    Shape.functionBlock "f" [] [] [
      Shape.foreachBlock (Shape.path "list" 2) ["item"] [
        Shape.ifBlock (Shape.path "item" 3) [Shape.breakStatement 4] 3 []] 2,
      Shape.returnStatement none 5] 1]

theorem leaving_lines_placed_search :
    ∃ m, compile Sample.search = .ok m ∧ (m.lines.filter (·.method.leaves)).map (·.method) = [.break_, .return_] ∧
      (∀ l ∈ m.lines, l.method = .return_ → Encloses m.lines [.function] l.parent) ∧
      ∀ l ∈ m.lines, l.method = .break_ → Encloses m.lines [.for_, .while_] l.parent := by
  obtain ⟨m, hm⟩ := ok_of_isOk (x := compile Sample.search) (by decide +kernel)
  have hlines : (compile Sample.search).map (fun m => (m.lines.filter (·.method.leaves)).map (·.method)) =
      .ok [.break_, .return_] := by decide +kernel
  rw [hm] at hlines
  have hplaced : ∀ x ∈ Sample.search.leaves {}, x.isPlaced = true := by decide +kernel
  exact ⟨m, hm, Except.ok.inj hlines, (leaving_lines_placed_iff hm).2.mpr hplaced⟩

/-- `return` and `break` in the body of `if`. -/
def Sample.branchOnly : Tree :=
  Shape.script [Shape.ifBlock (Shape.path "a" 1) [Shape.returnStatement none 2, Shape.breakStatement 3] 1 []]

/-- `return` and `break` are lowered in the body of `if`, with neither a function nor a loop around it. -/
theorem leaves_branch_only :
    ∃ m, compile Sample.branchOnly = .ok m ∧
      (∃ l ∈ m.lines, l.method = .return_ ∧ ¬Encloses m.lines [.function] l.parent) ∧
      ∃ l ∈ m.lines, l.method = .break_ ∧ ¬Encloses m.lines [.for_, .while_] l.parent := by
  obtain ⟨m, hm⟩ := ok_of_isOk (x := compile Sample.branchOnly) (by decide +kernel)
  have hmethods : (compile Sample.branchOnly).map (fun m => m.lines.map (·.method)) = .ok [.if_, .return_, .break_] := by
    decide +kernel
  rw [hm] at hmethods
  have hlines : m.lines.map (·.method) = [.if_, .return_, .break_] := Except.ok.inj hmethods
  have hmem : ∀ method ∈ [Method.if_, .return_, .break_], ∃ l ∈ m.lines, l.method = method := fun method h =>
    List.mem_map.mp (hlines ▸ h)
  have hnone : ∀ (ms : List Method) p, (∀ x ∈ [Method.if_, .return_, .break_], x ∉ ms) → ¬Encloses m.lines ms p := by
    rintro ms p h ⟨a, k, -, hk, -, hm⟩
    exact h k.method (hlines ▸ List.mem_map_of_mem hk) hm
  obtain ⟨l, hl, hreturn⟩ := hmem .return_ (by decide)
  obtain ⟨k, hk, hbreak⟩ := hmem .break_ (by decide)
  exact ⟨m, hm, ⟨l, hl, hreturn, hnone _ _ (by decide)⟩, k, hk, hbreak, hnone _ _ (by decide)⟩

end Flowline
