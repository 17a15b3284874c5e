import Flowline.Proofs.Requests
import Flowline.Proofs.SetLines

/-! The arguments of service calls. A service call as a statement, with a body or without, or on the right of an
    assignment makes one line, and its arguments stand in that line: as the operands of a call, or in the first
    mutation if the call starts with the name of a value. A call that starts with such a name and has no command is
    taken for the value itself, and its arguments are left out without being read. What the body adds to the line of
    its header stands after the operands that the line has from the beginning, in any store. -/

namespace Flowline

/-! ### Operands of lines from before -/

/-- The line is amended, and its operands are continued at most. -/
structure Line.Lengthened (l l' : Line) : Prop where
  amended : l.Amended l'
  args : ∀ args, l.args = some args → ∃ more, l'.args = some (args ++ more)

theorem Line.Lengthened.of_args {l l' : Line} (h : l.Amended l') (ha : l'.args = l.args) : l.Lengthened l' :=
  ⟨h, fun args hargs => ⟨[], by rw [ha, hargs, List.append_nil]⟩⟩

theorem Line.Lengthened.trans (x y z : Line) (h : x.Lengthened y) (h' : y.Lengthened z) : x.Lengthened z where
  amended := .trans x y z h.amended h'.amended
  args := by
    intro args hargs
    obtain ⟨more, hy⟩ := h.args args hargs
    obtain ⟨more', hz⟩ := h'.args _ hy
    exact ⟨more ++ more', by rw [hz, List.append_assoc]⟩

theorem Line.Lengthened.allows : Line.Allows Line.Lengthened where
  refl _ := .of_args rfl rfl
  trans := Line.Lengthened.trans
  links _ _ _ _ := .of_args rfl rfl
  args l more := ⟨rfl, fun args hargs => ⟨more, by rw [Line.addArgs, hargs, Option.getD_some]⟩⟩

/-- A body adds to the operands of lines from before at their ends at most. -/
theorem LowersBody.lengthens {h : Address} {t u : Store} (hb : LowersBody h t u) : t.Retains Line.Lengthened u := by
  rcases hb with rfl | ⟨output, v, hv, rfl⟩
  · exact .of_lines Line.Lengthened.allows rfl
  · exact hv.retains Line.Lengthened.allows

/-! ### The line of a service call -/

namespace Tree

/-- The arguments that a service fragment lists, each as it is read, in order. -/
def ListsArguments (fragment : Tree) (arguments : List Argument) : Prop :=
  List.Forall₂ (fun t a => t.readArgument = .ok a) (fragment.childrenTagged "arguments") arguments

/-- The method and the operands of the line of a service call, by whether it starts with the name of a value. -/
inductive Makes (service fragment : Tree) : Bool → Method → List Value → Prop
  | call {m : Method} {arguments : List Argument} (hm : m = .execute ∨ m = .call)
      (ha : fragment.ListsArguments arguments) : Makes service fragment false m (arguments.map .argument)
  | command {command : Tree} {name : String} {subject : Value} {arguments : List Argument} {chain : List Value}
      (hc : fragment.child? "command" = some command) (ha : fragment.ListsArguments arguments) :
      Makes service fragment true .mutation (subject :: .mutation name arguments :: chain)
  | bare {m : Method} {subject : Value} {chain : List Value} (hc : fragment.child? "command" = none)
      (hchain : service.readChain = .ok chain) (hm : m = .mutation ↔ chain ≠ []) :
      Makes service fragment true m (subject :: chain)

variable {t service fragment : Tree} {arguments : List Argument}

theorem fragmentArguments_eq (h : t.child? "service_fragment" = some fragment) :
    fragmentArguments t.children = fragment.readChildArguments := by
  obtain ⟨tag, children⟩ := t
  change (children.filterMap Child.tree?).find? (·.tag == "service_fragment") = some fragment at h
  show fragmentArguments children = _
  induction children with
  | nil => cases h
  | cons c rest ih =>
    cases c with
    | token => exact ih h
    | tree t =>
      rw [fragmentArguments]
      by_cases ht : t.tag = "service_fragment"
      · simp only [List.filterMap_cons, Child.tree?, ht, List.find?_cons, beq_self_eq_true, Option.some.injEq] at h
        rw [if_pos ht, h]
      · rw [if_neg ht]
        refine ih ?_
        simpa [List.filterMap_cons, Child.tree?, ht, List.find?_cons] using h

theorem listsArguments_of_read (hf : t.child? "service_fragment" = some fragment)
    (h : fragmentArguments t.children = .ok arguments) : fragment.ListsArguments arguments := by
  rw [fragmentArguments_eq hf, readChildArguments_eq] at h
  exact mapM_eq_ok.mp h

theorem readValueCommand_makes {bare m : Method} {made : List Value}
    (hf : service.child? "service_fragment" = some fragment) (hbare : bare ≠ .mutation)
    (h : service.readValueCommand bare = .ok (m, made)) : service.Makes fragment true m made := by
  rw [readValueCommand, hf, Option.bind_some] at h
  simp only [except_bind_eq_ok, found_eq_ok, child_eq_ok] at h
  obtain ⟨path, -, subject, -, h⟩ := h
  cases hc : fragment.child? "command" with
  | some command =>
    simp only [hc, except_bind_eq_ok, found_eq_ok, tokenAt_eq_ok] at h
    obtain ⟨name, -, arguments, ha, chain, -, ⟨⟩⟩ := h
    exact .command hc (listsArguments_of_read hf ha)
  | none =>
    simp only [hc, except_bind_eq_ok] at h
    obtain ⟨chain, hchain, ⟨⟩⟩ := h
    refine .bare hc hchain ?_
    -- the arguments are not read on this way, so they need not be well formed
    cases chain <;> simp [hbare]

/-- Whether a service call starts with the name of a value. -/
def startsWithValue (service : Tree) (s : Store) : Bool :=
  ((service.child? "path").bind (·.tokenAt? 0)).any fun root => s.isValue root.value

end Tree

section Lines

open LowerM

variable {service fragment : Tree} {p : Option Address} {s u : Store} {h : Address}

/-- The line of a service call that is lowered in `s` under `p`, with the operands that the call makes and more. -/
structure Line.OfCall (s : Store) (p : Option Address) (service fragment : Tree) (made more : List Value) (l : Line) :
    Prop where
  parent : l.parent = p
  source : service.line = .ok l.sourceLine
  makes : service.Makes fragment (service.startsWithValue s) l.method made
  args : l.args = some (made ++ more)

/-- From `s`, the line of a service call was added under `p`. -/
def Store.AddsCall (s : Store) (p : Option Address) (service fragment : Tree) (u : Store) : Prop :=
  ∃ old k made, u.lines = old ++ [k] ∧ old.length = s.lines.length ∧ k.OfCall s p service fragment made []

theorem Store.AddsCall.of_append {m : Method} {ln : UInt32} {d : Draft} {made : List Value} {s' : Store}
    (hs : s'.lines = s.lines) (hln : service.line = .ok ln) (hd : d.args = some made)
    (hm : service.Makes fragment (service.startsWithValue s) m made) :
    s.AddsCall d.parent service fragment (s'.append m ln d).2 := by
  refine ⟨_, _, made, s'.append_lines m ln d, ?_, rfl, hln, hm, by rw [List.append_nil]; exact hd⟩
  rw [← hs]
  exact (s'.touched_linkedTo d.parent (s'.fresh ln)).length_eq.symm

/-- The name that an assignment gives to the line has no part in the call. -/
theorem Store.AddsCall.nameLast (hu : s.AddsCall p service fragment u) (path : List Segment) :
    s.AddsCall p service fragment (u.nameLast path) := by
  obtain ⟨old, k, made, hlines, hlength, hk⟩ := hu
  refine ⟨old, { k with name := some path }, made, ?_, hlength, hk.parent, hk.source, hk.makes, hk.args⟩
  show Line.updateLast _ u.lines = _
  rw [hlines, Line.updateLast_concat]

/-- The line of the call stands where the lines of `s` end, and what follows may continue its operands. -/
theorem Store.AddsCall.line {w : Store} (hw : s.AddsCall p service fragment w) (hu : w.Retains Line.Lengthened u) :
    ∃ l made more, u.lines[s.lines.length]? = some l ∧ l.OfCall s p service fragment made more ∧
      (u = w → more = []) := by
  obtain ⟨old, k, made, hlines, hlength, hk⟩ := hw
  have hget : w.lines[s.lines.length]? = some k := by simp [hlines, ← hlength]
  have hargs : k.args = some made := by rw [hk.args, List.append_nil]
  obtain ⟨l, hl, hr⟩ := hu.getElem? hget
  obtain ⟨more, hmore⟩ := hr.args made hargs
  have hsource : l.sourceLine = k.sourceLine := by rw [hr.amended]
  have hmethod : l.method = k.method := by rw [hr.amended]
  refine ⟨l, made, more, hl, ⟨hr.amended.parent.trans hk.parent, hsource ▸ hk.source, hmethod ▸ hk.makes, hmore⟩, ?_⟩
  rintro rfl
  obtain rfl := Option.some.inj (hget.symm.trans hl)
  simpa using hargs.symm.trans hmore

theorem LowerM.targetsValue_eq {b : Bool} (hb : targetsValue service s = .ok b u) :
    service.startsWithValue s = b ∧ u = s := by
  simp only [targetsValue, bind_eq_ok, lookUp_eq_ok, Tree.child_eq_ok, Tree.tokenAt_eq_ok] at hb
  obtain ⟨path, _, ⟨hpath, rfl⟩, root, _, ⟨hroot, rfl⟩, _, _, ⟨⟩, hvalue⟩ := hb
  obtain ⟨rfl, rfl⟩ := pure_eq_ok.mp hvalue
  rw [Tree.startsWithValue, hpath, Option.bind_some, hroot, Option.any_some]
  exact ⟨rfl, rfl⟩

variable (hf : service.child? "service_fragment" = some fragment)

include hf

theorem LowerM.valueCommand_addsCall {bare : Method} (hbare : bare ≠ .mutation) (hv : service.startsWithValue s = true)
    (hrun : valueCommand service bare p s = .ok h u) : s.AddsCall p service fragment u := by
  simp only [valueCommand, bind_eq_ok, read_eq_ok, lookUp_eq_ok] at hrun
  obtain ⟨⟨m, args⟩, _, ⟨hread, rfl⟩, ln, _, ⟨hln, rfl⟩, happend⟩ := hrun
  obtain ⟨-, rfl⟩ := append_eq_ok.mp happend
  refine .of_append rfl hln rfl ?_
  rw [hv]
  exact Tree.readValueCommand_makes hf hbare hread

theorem Store.execute_addsCall {ln : UInt32} {r : Request} (hr : service.readRequest = .ok r)
    (hln : service.line = .ok ln) (hv : service.startsWithValue s = false) (hrun : s.execute ln r p = .ok (h, u)) :
    s.AddsCall p service fragment u := by
  obtain ⟨path, command, arguments, -, -, ha, rfl⟩ := Tree.readRequest_eq_ok.mp hr
  unfold Store.execute Store.invoke at hrun
  split at hrun
  · cases hrun
  obtain rfl := (congrArg Prod.snd (Except.ok.inj hrun)).symm
  refine .of_append ?_ hln rfl ?_
  · split <;> simp
  · rw [hv]
    refine .call ?_ (Tree.listsArguments_of_read hf ha)
    split <;> simp

theorem LowerM.serviceLine_addsCall (hrun : serviceLine service p s = .ok h u) : s.AddsCall p service fragment u := by
  obtain ⟨b, t, hb, hrest⟩ := bind_eq_ok.mp hrun
  obtain ⟨hv, rfl⟩ := targetsValue_eq hb
  cases b with
  | true => exact valueCommand_addsCall hf (by decide) hv hrest
  | false =>
    simp only [Bool.false_eq_true, if_false, bind_eq_ok, read_eq_ok, lookUp_eq_ok, invoke_eq_ok] at hrest
    obtain ⟨ln, _, ⟨hln, rfl⟩, r, _, ⟨hr, rfl⟩, hexecute⟩ := hrest
    exact Store.execute_addsCall hf hr hln hv hexecute

/-- The line of a service call as a statement is followed by its body. -/
theorem LowerM.lowerService_addsCall {parts : List (Part Store)} {x : Unit} (htag : service.tag = "service")
    (hrun : lowerService service parts p s = .ok x u) :
    ∃ h output w, s.AddsCall p service fragment w ∧ Part.lowerBody parts h output w = .ok x u := by
  unfold lowerService at hrun
  rw [if_pos htag, pure_bind] at hrun
  obtain ⟨b, t, hb, hrest⟩ := bind_eq_ok.mp hrun
  obtain ⟨hv, rfl⟩ := targetsValue_eq hb
  cases b with
  | true =>
    obtain ⟨h, w, hw, hbody⟩ := bind_eq_ok.mp hrest
    exact ⟨h, _, w, valueCommand_addsCall hf (by decide) hv hw, hbody⟩
  | false =>
    simp only [Bool.false_eq_true, if_false, bind_eq_ok, read_eq_ok, lookUp_eq_ok, invoke_eq_ok] at hrest
    obtain ⟨r, _, ⟨hr, rfl⟩, ln, _, ⟨hln, rfl⟩, h, w, hexecute, hbody⟩ := hrest
    exact ⟨h, _, w, Store.execute_addsCall hf hr hln hv hexecute, hbody⟩

end Lines

/-! ### Statements that call a service -/

/-- A statement with a service call: the call itself, a block with the call as its header, or an assignment of what
    the call answers. -/
inductive Tree.CallsService (t : Tree) : Tree → Prop
  | statement (htag : t.tag = "service") : t.CallsService t
  | block {service : Tree} (htag : t.tag = "service_block") (hc : t.child? "service" = some service) :
      t.CallsService service
  | assigned {service : Tree} (ha : t.Assigns service) (hs : service.tag = "service") : t.CallsService service

section Statements

open LowerM

variable {t service fragment : Tree} {p : Option Address} {s u : Store}

theorem LowerM.lowerService_block {parts : List (Part Store)} (htag : t.tag ≠ "service")
    (hc : t.child? "service" = some service) : lowerService t parts p s = lowerService service parts p s := by
  have hservice : service.tag = "service" := by simpa using List.find?_some hc
  have hchild : (liftM (t.child "service") : LowerM Store Tree) s = .ok service s :=
    lookUp_eq_ok.mpr ⟨Tree.child_eq_ok.mpr hc, rfl⟩
  unfold lowerService
  rw [if_neg htag, if_pos hservice, bind_of_ok hchild, pure_bind]

theorem Part.lowerBody_nested {h : Address} {output : Option (List String)} {x : Unit}
    (hrun : Part.lowerBody (t.subtrees.map fun c => ⟨c, c.lower⟩) h output s = .ok x u) :
    s.Retains Line.Lengthened u ∧ (t.child? "nested_block" = none → u = s) := by
  have hparts : ∀ part ∈ t.subtrees.map (fun c => (⟨c, c.lower⟩ : Part Store)),
      Sound (fun d _ _ => d.Listed) part.lower := by
    simp only [List.mem_map]
    rintro _ ⟨c, -, rfl⟩
    exact c.lower_sound
  refine ⟨((lowerBody_lowersBody hparts h output).of_ok hrun).lengthens, fun hnone => ?_⟩
  have hfind : (t.subtrees.map fun c => (⟨c, c.lower⟩ : Part Store)).find? (·.tree.tag == "nested_block") = none := by
    rw [List.find?_map]
    exact Option.map_eq_none_iff.mpr hnone
  rw [Part.lowerBody, hfind] at hrun
  exact (pure_eq_ok.mp hrun).2

variable (hf : service.child? "service_fragment" = some fragment)

include hf

theorem LowerM.lowerService_line (htag : service.tag = "service")
    (hrun : lowerService service (t.subtrees.map fun c => ⟨c, c.lower⟩) p s = .ok () u) :
    ∃ l made more, u.lines[s.lines.length]? = some l ∧ l.OfCall s p service fragment made more ∧
      (t.child? "nested_block" = none → more = []) := by
  obtain ⟨h, output, w, hw, hbody⟩ := lowerService_addsCall hf htag hrun
  obtain ⟨hlengthens, hnone⟩ := Part.lowerBody_nested hbody
  obtain ⟨l, made, more, hl, hcall, hmore⟩ := hw.line hlengthens
  exact ⟨l, made, more, hl, hcall, fun hbare => hmore (hnone hbare)⟩

theorem LowerM.lowerAssignment_addsCall (ha : t.Assigns service) (htag : service.tag = "service")
    (hrun : lowerAssignment t p s = .ok () u) : s.AddsCall p service fragment u := by
  obtain ⟨right, hright, hservice⟩ := ha.value
  obtain ⟨target, path, _, _, h, v, -, -, -, hright', hoperand, hline, rfl⟩ := lowerAssignment_eq_ok.mp hrun
  obtain rfl := Except.ok.inj (hright.symm.trans hright')
  obtain rfl := Except.ok.inj (hservice.symm.trans hoperand)
  rw [operandLine, htag] at hline
  exact (serviceLine_addsCall hf hline).nameLast path

/-- The operands of the line of the call begin with what the call makes; there are further ones only if there is a
    body. -/
theorem Tree.CallsService.line (ht : t.CallsService service) (hrun : t.lower p s = .ok () u) :
    ∃ l made more, u.lines[s.lines.length]? = some l ∧ l.OfCall s p service fragment made more ∧
      (t.child? "nested_block" = none → more = []) := by
  cases ht with
  | statement htag =>
    rw [Tree.lower_eq, LowerM.statement, htag] at hrun
    exact lowerService_line hf htag hrun
  | block htag hc =>
    have hservice : service.tag = "service" := by simpa using List.find?_some hc
    have hother : t.tag ≠ "service" := by rw [htag]; decide
    rw [Tree.lower_eq, LowerM.statement, htag] at hrun
    exact lowerService_line hf hservice ((lowerService_block hother hc).symm.trans hrun)
  | assigned ha hs =>
    rw [Tree.lower_assignment_eq ha.tag] at hrun
    obtain ⟨l, made, more, hl, hcall, hmore⟩ :=
      (lowerAssignment_addsCall hf ha hs hrun).line (.of_lines Line.Lengthened.allows rfl)
    exact ⟨l, made, more, hl, hcall, fun _ => hmore rfl⟩

end Statements

/-! ### Arguments in the line -/

/-- The line holds these arguments in order: in its first mutation if the call starts with the name of a value, and
    else as its first operands. -/
def Line.HoldsArguments (l : Line) (onValue : Bool) (arguments : List Argument) : Prop :=
  if onValue = true then
    arguments ≠ [] →
      l.method = .mutation ∧ ∃ subject name more, l.args = some (subject :: .mutation name arguments :: more)
  else (l.method = .execute ∨ l.method = .call) ∧ ∃ more, l.args = some (arguments.map .argument ++ more)

section Kept

variable {service fragment : Tree} {onValue : Bool} {made more : List Value} {l : Line}

/-- The arguments of a value without a command are in the line only if there are none, or by coincidence: if the first
    of the mutations chained to it has the same ones. -/
theorem Tree.Makes.holds_iff (hm : service.Makes fragment onValue l.method made)
    (hargs : l.args = some (made ++ more)) :
    (∃ arguments, fragment.ListsArguments arguments ∧ l.HoldsArguments onValue arguments) ↔
      onValue = false ∨ (fragment.child? "command").isSome = true ∨ fragment.childrenTagged "arguments" = [] ∨
        ∃ name arguments chain, service.readChain = .ok (.mutation name arguments :: chain) ∧
          fragment.ListsArguments arguments := by
  generalize hmethod : l.method = m at hm
  cases hm with
  | @call _ arguments hm ha =>
    exact iff_of_true ⟨arguments, ha, hmethod ▸ hm, more, hargs⟩ (Or.inl rfl)
  | @command command name subject arguments chain hc ha =>
    refine iff_of_true ⟨arguments, ha, fun _ => ⟨hmethod, subject, name, chain ++ more, hargs⟩⟩ (Or.inr (Or.inl ?_))
    rw [hc, Option.isSome_some]
  | @bare _ subject chain hc hchain hm =>
    constructor
    · rintro ⟨arguments, ha, hholds⟩
      by_cases hnil : arguments = []
      · rw [hnil] at ha
        exact Or.inr (Or.inr (Or.inl (List.forall₂_nil_right_iff.mp ha)))
      -- a line with no mutation chained to it is not a mutation, so there is a first one, and it is the one in the line
      obtain ⟨hmutation, subject', name, more', hargs'⟩ := hholds hnil
      obtain ⟨first, rest, rfl⟩ := List.exists_cons_of_ne_nil (hm.mp (hmethod.symm.trans hmutation))
      obtain ⟨-, rfl, -⟩ : subject = subject' ∧ first = .mutation name arguments ∧ rest ++ more = more' := by
        simpa using hargs.symm.trans hargs'
      exact Or.inr (Or.inr (Or.inr ⟨name, arguments, rest, hchain, ha⟩))
    · rintro (h | h | h | ⟨name, arguments, rest, hrest, ha⟩)
      · cases h
      · rw [hc] at h
        cases h
      · refine ⟨[], ?_, fun hne => absurd rfl hne⟩
        rw [Tree.ListsArguments, h]
        exact .nil
      · obtain rfl := Except.ok.inj (hchain.symm.trans hrest)
        have hmutation := hmethod.trans (hm.mpr (List.cons_ne_nil _ _))
        exact ⟨arguments, ha, fun _ => ⟨hmutation, subject, name, rest ++ more, hargs⟩⟩

end Kept

/-- The arguments of a service call are in its line unless the call starts with the name of a value and has no
    command: then they are lost, but for a coincidence with what is chained to the value. A call that is no mutation
    and has no body has no other operands. -/
theorem service_arguments_kept_iff {t service fragment : Tree} {p : Option Address} {s u : Store}
    (ht : t.CallsService service) (hf : service.child? "service_fragment" = some fragment)
    (hrun : t.lower p s = .ok () u) :
    ∃ l, u.lines[s.lines.length]? = some l ∧ l.parent = p ∧ service.line = .ok l.sourceLine ∧
      ((∃ arguments, fragment.ListsArguments arguments ∧ l.HoldsArguments (service.startsWithValue s) arguments) ↔
        service.startsWithValue s = false ∨ (fragment.child? "command").isSome = true ∨
          fragment.childrenTagged "arguments" = [] ∨
          ∃ name arguments chain, service.readChain = .ok (.mutation name arguments :: chain) ∧
            fragment.ListsArguments arguments) ∧
      (service.startsWithValue s = false → t.child? "nested_block" = none →
        ∃ arguments, fragment.ListsArguments arguments ∧ l.args = some (arguments.map .argument)) := by
  obtain ⟨l, made, more, hl, hcall, hmore⟩ := ht.line hf hrun
  refine ⟨l, hl, hcall.parent, hcall.source, hcall.makes.holds_iff hcall.args, fun hv hbare => ?_⟩
  have hmakes := hcall.makes
  rw [hv] at hmakes
  generalize l.method = m at hmakes
  cases hmakes with
  | @call _ arguments _ ha => exact ⟨arguments, ha, by rw [hcall.args, hmore hbare, List.append_nil]⟩

namespace Sample

/-- A store in which `x` is the name of a value. -/
def bound : Store :=
  ({} : Store).nameLast [.name "x"]

/-- `x k:v`, with or without a command. -/
def keyed (command : Option String) : Tree :=
  Shape.service "x" command [Shape.argument (some "k") (Shape.path "v" 2) 2] [] 2

end Sample

theorem service_arguments_kept_iff_command :
    ∃ u l arguments, (Sample.keyed (some "append")).lower none Sample.bound = .ok () u ∧ u.lines[0]? = some l ∧
      arguments.length = 1 ∧ l.HoldsArguments true arguments := by
  obtain ⟨u, hrun⟩ : ∃ u, (Sample.keyed (some "append")).lower none Sample.bound = .ok () u := ⟨_, rfl⟩
  obtain ⟨l, hl, -, -, hiff, -⟩ := service_arguments_kept_iff (.statement rfl) rfl hrun
  obtain ⟨arguments, hlists, hholds⟩ := hiff.mpr (Or.inr (Or.inl rfl))
  exact ⟨u, l, arguments, hrun, hl, hlists.length_eq.symm, hholds⟩

/-- The line of `x k:v` is the value alone. -/
theorem service_arguments_lost :
    ∃ fragment u l, (Sample.keyed none).child? "service_fragment" = some fragment ∧
      fragment.ListsArguments [⟨some "k", .path [.name "v"]⟩] ∧
      (Sample.keyed none).lower none Sample.bound = .ok () u ∧ u.lines[0]? = some l ∧
      l.method = .expression ∧ l.args = some [.path [.name "x"]] ∧
      ¬ l.HoldsArguments true [⟨some "k", .path [.name "v"]⟩] := by
  refine ⟨_, _, _, rfl, .cons rfl .nil, rfl, rfl, rfl, rfl, fun hholds => ?_⟩
  obtain ⟨hmethod, -⟩ := hholds (List.cons_ne_nil _ _)
  cases hmethod

end Flowline
