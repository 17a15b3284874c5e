import Flowline.Proofs.Continuation
import Flowline.Proofs.Failing
import Flowline.Proofs.Frame

/-! The variables of computed operands. An operand that a header cannot hold is computed by the line before it,
    into a variable that is named after that line; at the end of a loop it is computed again. No other line
    assigns to such a variable, as long as the targets of assignments start with a name: a name that is written
    in a script has no dash. -/

namespace Flowline

/-- Whether a variable is named like those that operands are computed into. -/
def Text.isOperandName (name : String) : Bool :=
  "__p-".toList.isPrefixOf name.toList

theorem Address.operandName_injective {a b : Address} (h : a.operandName = b.operandName) : a = b := by
  have hlist := congrArg String.toList h
  simp only [Address.operandName, String.toList_append, List.append_cancel_left_eq] at hlist
  exact congrArg Address.mk (String.toList_inj.mp hlist)

theorem Text.has_dash_of_isOperandName {name : String} (h : Text.isOperandName name = true) :
    Text.has name '-' = true := by
  obtain ⟨rest, hrest⟩ := List.isPrefixOf_iff_prefix.mp h
  rw [Text.has, ← hrest]
  simp

/-- The variable that the result of a line is assigned to, or to a part of. -/
def Line.assigned? (l : Line) : Option String :=
  match l.name with
  | some (.name root :: _) => some root
  | _ => none

theorem Line.assigned?_of_name {l l' : Line} (h : l'.name = l.name) : l'.assigned? = l.assigned? := by
  rw [Line.assigned?, h, Line.assigned?]

/-! ### Lines that are carried along -/

/-- A line from before. Only its links change, and its operands if it is the last line and is continued. -/
structure Line.Carried (continued : Address → Prop) (last : Prop) (l l' : Line) : Prop where
  rest : l' = { l with args := l'.args, enter := l'.enter, exit := l'.exit, next := l'.next }
  args : l'.args = l.args ∨ continued l.address ∧ last ∧ (l.method = .execute ∨ l.method = .mutation) ∧
    ∃ more, l'.args = some (l.args.getD [] ++ more)

namespace Line.Carried

variable {continued : Address → Prop} {last last' : Prop} {x y z : Line}

theorem address (h : x.Carried continued last y) : y.address = x.address := by rw [h.rest]
theorem method (h : x.Carried continued last y) : y.method = x.method := by rw [h.rest]
theorem name (h : x.Carried continued last y) : y.name = x.name := by rw [h.rest]
theorem parent (h : x.Carried continued last y) : y.parent = x.parent := by rw [h.rest]

theorem mono (h : x.Carried continued last y) (hlast : last → last') : x.Carried continued last' y :=
  ⟨h.rest, h.args.imp_right fun ⟨hc, hl, hm⟩ => ⟨hc, hlast hl, hm⟩⟩

theorem trans (h : x.Carried continued last y) (h' : y.Carried continued last' z) (hlast : last' → last) :
    x.Carried continued last z where
  rest := by rw [h'.rest, h.rest]
  args := by
    rcases h'.args with hz | ⟨hc, hz, hm, more, hargs⟩
    · rw [hz]
      exact h.args
    · exact Or.inr ⟨h.address ▸ hc, hlast hz, h.method ▸ hm, args_added_twice (h.args.imp_right (·.2.2.2)) hargs⟩

end Line.Carried

namespace Store

/-- Lines were added at the end, and those from before are carried along where they stand. -/
def Carries (continued : Address → Prop) (s t : Store) : Prop :=
  ∀ (i : Nat) (l : Line), s.lines[i]? = some l →
    ∃ l', t.lines[i]? = some l' ∧ l.Carried continued (i + 1 = s.lines.length) l'

namespace Carries

variable {continued : Address → Prop} {s t u : Store}

theorem of_forall₂ {old new : List Line} (hl : t.lines = old ++ new)
    (hold : List.Forall₂ (fun l l' : Line => l' = { l with enter := l'.enter, exit := l'.exit, next := l'.next })
      s.lines old) : s.Carries continued t := by
  intro i l hi
  obtain ⟨l', hl', hr⟩ := forall₂_getElem?_left hold hi
  refine ⟨l', by rw [hl, getElem?_append_some hl'], ?_, Or.inl ?_⟩ <;> rw [hr]

theorem of_lines (hl : t.lines = s.lines) : s.Carries continued t :=
  of_forall₂ (hl.trans (List.append_nil _).symm) (List.forall₂_same.mpr fun _ _ => rfl)

theorem concat {p : Option Address} {a : Address} {k : Line} (hl : t.lines = s.linkedTo p a ++ [k]) :
    s.Carries continued t :=
  of_forall₂ hl ((s.touched_linkedTo p a).imp fun _ _ hr => by rw [hr.rest])

theorem linkExit (s : Store) (a : Address) : s.Carries continued (s.linkExit a) :=
  of_forall₂ (List.append_nil _).symm ((s.forall₂_linkExit a).imp fun _ _ hr => by rw [hr])

theorem addArgsToLast {m : Method} (hs : Keyed s.lines) (hc : ∀ a, s.last? = some a → continued a)
    (hm : m = .execute ∨ m = .mutation) (more : List Value) : s.Carries continued (s.addArgsToLast m more).2 := by
  rcases List.eq_nil_or_concat s.lines with hnil | ⟨init, k, hl⟩
  · intro i l hi
    simp [hnil] at hi
  · rw [List.concat_eq_append] at hl
    rw [s.addArgsToLast_concat hs hl]
    split
    · rename_i hk
      intro i l hi
      rw [hl] at hi ⊢
      rcases getElem?_concat_cases hi with hi | ⟨rfl, rfl⟩
      · exact ⟨l, getElem?_append_some hi, rfl, Or.inl rfl⟩
      · refine ⟨l.addArgs more, by simp, rfl, Or.inr ⟨hc _ ?_, by simp, hk ▸ hm, more, rfl⟩⟩
        simp [Store.last?, hl]
    · exact of_lines rfl

theorem length_le (h : s.Carries continued t) : s.lines.length ≤ t.lines.length := by
  by_contra hlt
  obtain ⟨l', hl', -⟩ := h t.lines.length _ (List.getElem?_eq_getElem (by omega))
  simp at hl'

theorem trans (h : s.Carries continued t) (h' : t.Carries continued u) : s.Carries continued u := by
  intro i l hi
  obtain ⟨l', hl', hr⟩ := h i l hi
  obtain ⟨l'', hl'', hr'⟩ := h' i l' hl'
  have hle := h.length_le
  have hlt := (List.getElem?_eq_some_iff.mp hi).1
  exact ⟨l'', hl'', hr.trans hr' fun hlast => by omega⟩

end Carries

end Store

/-! ### Operands -/

/-- The line computes the operand of the header that follows it, into a variable named after its address. -/
def OperandOf (ls : List Line) (i : Nat) (l : Line) : Prop :=
  l.name = some [.name l.address.operandName] ∧ ∃ k, ls[i + 1]? = some k ∧
    k.method ∈ [.if_, .elif, .while_, .return_] ∧ k.args = some [.ofNames [l.address.operandName]]

/-- The line holds what another one holds, at another address and under another parent. More operands were added
    at its end only if it was continued. -/
def Line.Repeats (continued : Address → Prop) (l c : Line) : Prop :=
  l = { c with address := l.address, sourceLine := l.sourceLine, args := l.args, enter := l.enter, exit := l.exit,
               parent := l.parent, next := l.next } ∧
    (l.args = c.args ∨ continued l.address ∧ (c.method = .execute ∨ c.method = .mutation) ∧
      ∃ more, l.args = some (c.args.getD [] ++ more))

/-- Two lines in a row, of which the first computes the operand of the loop that the second heads. -/
structure LoopOperand (ls : List Line) (j : Nat) (c w : Line) : Prop where
  computed : ls[j]? = some c
  header : ls[j + 1]? = some w
  loops : w.method = .while_
  named : c.name = some [.name c.address.operandName]

/-- The line computes the operand of a loop again, in its body. -/
def RepeatedOperand (continued : Address → Prop) (ls : List Line) (l : Line) : Prop :=
  ∃ j c w, LoopOperand ls j c w ∧ l.parent = some w.address ∧ l.Repeats continued c

/-- If the line assigns to a variable for operands, it computes an operand. -/
def Accounted (continued : Address → Prop) (ls : List Line) (i : Nat) (l : Line) : Prop :=
  ∀ root, l.assigned? = some root → Text.isOperandName root = true →
    OperandOf ls i l ∨ RepeatedOperand continued ls l

/-- The links are whole, and variables for operands are assigned to by lines that compute operands. -/
structure Store.WellNamed (continued : Address → Prop) (s : Store) : Prop where
  linked : s.Linked
  accounted : ∀ (i : Nat) (l : Line), s.lines[i]? = some l → Accounted continued s.lines i l

section WellNamed

variable {continued : Address → Prop} {p : Option Address} {s t u : Store} {i : Nat} {l l' : Line}

theorem OperandOf.carries (h : OperandOf s.lines i l) (hc : s.Carries continued t) {last : Prop}
    (hl : l.Carried continued last l') : OperandOf t.lines i l' := by
  obtain ⟨hn, k, hk, hm, hargs⟩ := h
  obtain ⟨k', hk', hr⟩ := hc (i + 1) k hk
  rw [OperandOf, hl.name, hl.address]
  refine ⟨hn, k', hk', hr.method ▸ hm, ?_⟩
  rcases hr.args with hsame | ⟨-, -, hcontinued, -⟩
  · rw [hsame, hargs]
  · rcases hcontinued with hcontinued | hcontinued <;> simp [hcontinued] at hm

/-- What computes the operand of a loop is followed by its header, so it is not the last line and is not continued. -/
theorem LoopOperand.carries {j : Nat} {c w : Line} (h : LoopOperand s.lines j c w) (hc : s.Carries continued t) :
    ∃ c' w', LoopOperand t.lines j c' w' ∧ c.Carried continued False c' ∧ w'.address = w.address := by
  obtain ⟨c', hc', hcr⟩ := hc j c h.computed
  obtain ⟨w', hw', hwr⟩ := hc (j + 1) w h.header
  refine ⟨c', w', ⟨hc', hw', hwr.method.trans h.loops, by rw [hcr.name, hcr.address, h.named]⟩, ?_, hwr.address⟩
  refine hcr.mono fun hlast => ?_
  have hlt := (List.getElem?_eq_some_iff.mp h.header).1
  omega

theorem Line.Repeats.carried {c c' : Line} (h : l.Repeats continued c) {last : Prop} (hl : l.Carried continued last l')
    (hc : c.Carried continued False c') : l'.Repeats continued c' := by
  obtain ⟨hrest, hargs⟩ := h
  have hmethod : l.method = c.method := by rw [hrest]
  have hsame : c'.args = c.args := hc.args.resolve_right fun h => h.2.1
  refine ⟨by rw [hl.rest, hrest, hc.rest], ?_⟩
  rw [hsame, hc.method, hl.address]
  rcases hl.args with hl | ⟨hcontinued, -, hm, more, hl⟩
  · rw [hl]
    exact hargs
  · exact Or.inr ⟨hcontinued, hmethod ▸ hm, args_added_twice (hargs.imp_right (·.2.2)) hl⟩

theorem RepeatedOperand.carries (h : RepeatedOperand continued s.lines l) (hc : s.Carries continued t) {last : Prop}
    (hl : l.Carried continued last l') : RepeatedOperand continued t.lines l' := by
  obtain ⟨j, c, w, hloop, hp, hrepeats⟩ := h
  obtain ⟨c', w', hloop', hcr, hw⟩ := hloop.carries hc
  exact ⟨j, c', w', hloop', by rw [hl.parent, hw, hp], hrepeats.carried hl hcr⟩

namespace Store.WellNamed

/-- Lines from before go on to be accounted for, so only new ones have to be. -/
theorem carries (hs : s.WellNamed continued) (ht : t.Linked) (hc : s.Carries continued t)
    (hnew : ∀ (i : Nat) (l : Line), s.lines.length ≤ i → t.lines[i]? = some l → Accounted continued t.lines i l) :
    t.WellNamed continued := by
  refine ⟨ht, fun i l' hl' => ?_⟩
  rcases Nat.lt_or_ge i s.lines.length with hi | hi
  · obtain ⟨l, hl⟩ : ∃ l, s.lines[i]? = some l := ⟨_, List.getElem?_eq_getElem hi⟩
    obtain ⟨x, hx, hr⟩ := hc i l hl
    obtain rfl : l' = x := Option.some.inj (hl'.symm.trans hx)
    intro root hassigned hroot
    rw [Line.assigned?_of_name hr.name] at hassigned
    exact (hs.accounted i l hl root hassigned hroot).imp (·.carries hc hr) (·.carries hc hr)
  · exact hnew i l' hi hl'

theorem of_length (hs : s.WellNamed continued) (ht : t.Linked) (hc : s.Carries continued t)
    (hlength : t.lines.length = s.lines.length) : t.WellNamed continued := by
  refine hs.carries ht hc fun i l hi hl => ?_
  have hlt := (List.getElem?_eq_some_iff.mp hl).1
  omega

theorem of_lines (hs : s.WellNamed continued) (h : t.lines = s.lines) : t.WellNamed continued :=
  ⟨hs.linked.of_lines h, h ▸ hs.accounted⟩

theorem concat {a : Address} {k : Line} (hs : s.WellNamed continued) (ht : t.Linked)
    (hl : t.lines = s.linkedTo p a ++ [k]) (hk : Accounted continued t.lines s.lines.length k) :
    t.WellNamed continued := by
  refine hs.carries ht (.concat hl) fun i l hi hget => ?_
  have hlength := (s.kept_linkedTo p a).length_eq
  rw [hl] at hget
  rcases getElem?_concat_cases hget with hget | ⟨rfl, rfl⟩
  · have hlt := (List.getElem?_eq_some_iff.mp hget).1
    omega
  · rwa [← hlength]

theorem unnamed {a : Address} {k : Line} (hs : s.WellNamed continued) (ht : t.Linked)
    (hl : t.lines = s.linkedTo p a ++ [k]) (hk : k.name = none) : t.WellNamed continued ∧ s.Carries continued t :=
  ⟨hs.concat ht hl fun _ h => by simp [Line.assigned?, hk] at h, .concat hl⟩

/-- Where two lines stand that were appended one after the other. -/
theorem two_appended (continued : Address → Prop) {a : Address} {k : Line} (hu : u.lines = s.linkedTo p a ++ [k])
    (m : Method) (ln : UInt32) (d : Draft) : ∃ k', (u.append m ln d).2.lines[s.lines.length]? = some k' ∧
      k.Carried continued True k' ∧ (u.append m ln d).2.lines[s.lines.length + 1]? = some (u.newLine m ln d) ∧
      (u.append m ln d).2.lines.length = s.lines.length + 2 := by
  have hold := (s.kept_linkedTo p a).length_eq
  have hlast := (u.kept_linkedTo d.parent (u.fresh ln)).length_eq
  have hk : u.lines[s.lines.length]? = some k := by simp [hu, hold]
  have hcarries : u.Carries continued (u.append m ln d).2 := .concat (u.append_lines m ln d)
  obtain ⟨k', hk', hr⟩ := hcarries _ k hk
  have hlength : u.lines.length = s.lines.length + 1 := by simp [hu, hold]
  refine ⟨k', hk', hr.mono fun _ => trivial, ?_, ?_⟩
  · rw [u.append_lines, ← hlength, hlast]
    simp
  · simp [u.append_lines, ← hlast, hlength]

/-- The line of an operand and its header come together: only then is the variable accounted for. -/
theorem computed {a : Address} {k : Line} {m : Method} {d : Draft} (hs : s.WellNamed continued) (hlinked : u.Linked)
    (hu : u.lines = s.linkedTo p a ++ [k]) (hk : k.name = some [.name k.address.operandName])
    (hm : m ∈ [.if_, .elif, .while_, .return_]) (hd : d.args = some [.ofNames [k.address.operandName]]) (ln : UInt32) :
    (u.append m ln d).2.WellNamed continued ∧ s.Carries continued (u.append m ln d).2 := by
  obtain ⟨k', hk', hr, hheader, hlength⟩ := two_appended continued hu m ln d
  have hcarries : s.Carries continued (u.append m ln d).2 := (Carries.concat hu).trans (.concat (u.append_lines m ln d))
  refine ⟨hs.carries (hlinked.append m ln d) hcarries fun i l hi hl => ?_, hcarries⟩
  have hlt := (List.getElem?_eq_some_iff.mp hl).1
  obtain rfl | rfl : i = s.lines.length ∨ i = s.lines.length + 1 := by omega
  · obtain rfl := Option.some.inj (hl.symm.trans hk')
    refine fun _ _ _ => Or.inl ⟨?_, _, hheader, hm, ?_⟩ <;> rw [hr.address]
    · rw [hr.name, hk]
    · exact hd
  · obtain rfl := Option.some.inj (hl.symm.trans hheader)
    exact fun _ h => by cases h

theorem header {o : Operand} {m : Method} (hs : s.WellNamed continued) (ho : OperandRead p s o u)
    (hm : m ∈ [.if_, .elif, .while_, .return_]) (ln : UInt32) :
    (u.append m ln { args := some o.args, parent := p }).2.WellNamed continued ∧
      s.Carries continued (u.append m ln { args := some o.args, parent := p }).2 := by
  cases ho with
  | plain => exact hs.unnamed (hs.linked.append m ln _) (s.append_lines m ln _) rfl
  | @computed m' ln' d =>
    exact hs.computed ((hs.linked.emit m' ln' d).nameLast _) (s.nameLast_emit_lines m' ln' d _) rfl hm rfl ln

/-- The header of a loop follows the line that computes its operand. -/
theorem loopOperand {o : Operand} {a : Address} (ho : OperandRead p s o u) (ha : o.line = some a) (ln : UInt32)
    (d : Draft) : ∃ j c w, LoopOperand (u.append .while_ ln d).2.lines j c w ∧ c.address = a ∧ w.address = u.fresh ln := by
  cases ho with
  | plain => cases ha
  | @computed m' ln' d' =>
    obtain rfl := Option.some.inj ha
    obtain ⟨k, hk, hr, hheader, -⟩ := two_appended (fun _ => False) (s.nameLast_emit_lines m' ln' d' _) .while_ ln d
    exact ⟨_, k, _, ⟨hk, hheader, rfl, by rw [hr.address, hr.name]; rfl⟩, hr.address, rfl⟩

/-- A loop repeats its operand. -/
theorem copyLine {j : Nat} {c w : Line} (hs : s.WellNamed continued) (h : LoopOperand s.lines j c w) (ln : UInt32) :
    (s.copyLine c.address ln (some w.address)).2.WellNamed continued ∧
      s.Carries continued (s.copyLine c.address ln (some w.address)).2 := by
  rcases s.copyLine_cases c.address ln (some w.address) with ⟨-, heq⟩ | ⟨line, hline, heq⟩
  · rw [heq]
    exact ⟨hs, .of_lines rfl⟩
  · obtain ⟨hmem, haddress⟩ := s.line?_eq_some hline
    obtain rfl := eq_of_address hs.linked.keyed hmem (List.mem_of_getElem? h.computed) haddress
    have hlines := congrArg Store.lines heq
    have hcarries : s.Carries continued (s.copyLine line.address ln (some w.address)).2 := .concat hlines
    obtain ⟨c, w', hloop, hcr, hw⟩ := h.carries hcarries
    refine ⟨hs.concat (hs.linked.copyLine _ ln _) hlines fun _ _ _ => Or.inr ?_, hcarries⟩
    refine ⟨j, c, w', hloop, ?_, ?_, Or.inl ?_⟩
    · exact congrArg some hw.symm
    · rw [hcr.rest]
      rfl
    · exact (hcr.args.resolve_right fun h => h.2.1).symm

end Store.WellNamed

end WellNamed

/-! ### Actions -/

namespace LowerM

/-- If the action ends, variables for operands are accounted for as they were before. -/
def NamesWell {α : Type} (continued : Address → Prop) (m : LowerM Store α) : Prop :=
  ∀ s, s.WellNamed continued → m.Ends s (fun _ t => t.WellNamed continued ∧ s.Carries continued t) fun _ _ => True

namespace NamesWell

variable {α β : Type} {continued : Address → Prop} {p : Option Address} {m : LowerM Store α} {f : α → LowerM Store β}
  {s t : Store}

theorem after (h : NamesWell continued m) (hs : t.WellNamed continued ∧ s.Carries continued t) :
    m.Ends t (fun _ u => u.WellNamed continued ∧ s.Carries continued u) fun _ _ => True :=
  (h t hs.1).mono (fun _ _ hu => ⟨hu.1, hs.2.trans hu.2⟩) fun _ _ h => h

theorem bind (h : NamesWell continued m) (hf : ∀ a, NamesWell continued (f a)) : NamesWell continued (m >>= f) :=
  fun s hs => Ends.bind ((h s hs).mono (fun a _ ht => (hf a).after ht) fun _ _ h => h)

theorem ensured {x : Except Diagnostic α} (hf : ∀ a, NamesWell continued (f a)) : NamesWell continued (liftM x >>= f) :=
  fun s hs => Ends.bind (ends_liftM_diagnostic (fun a _ => hf a s hs) fun _ _ => trivial)

theorem read {x : Except Malformed α} (hf : ∀ a, NamesWell continued (f a)) : NamesWell continued (liftM x >>= f) :=
  fun s hs => Ends.bind (ends_liftM_malformed (fun a _ => hf a s hs) fun _ => trivial)

theorem lookUp {x : Except Missing α} (hf : ∀ a, NamesWell continued (f a)) : NamesWell continued (liftM x >>= f) :=
  fun s hs => Ends.bind (ends_liftM_missing (fun a _ => hf a s hs) fun _ => trivial)

theorem of_emits {m : LowerM Store Address} {kind : Method → Draft → Prop}
    (h : ∀ s, m.Ends s (Emitted p s kind) (Refused s)) : NamesWell continued m := by
  intro s hs
  refine (h s).mono ?_ fun _ _ _ => trivial
  rintro _ _ ⟨m, ln, d, -, -, -, rfl⟩
  exact hs.unnamed (hs.linked.emit m ln d) (s.emit_lines m ln d) rfl

end NamesWell

variable {α : Type} {continued : Address → Prop} {p : Option Address}

theorem namesWell_pure (a : α) : NamesWell continued (pure a : LowerM Store α) := fun _ hs => ⟨hs, .of_lines rfl⟩

theorem namesWell_throw (d : Diagnostic) : NamesWell continued (throw d : LowerM Store α) := fun _ _ => trivial

theorem namesWell_modifyGet {g : Store → α × Store} (hg : ∀ s, (g s).2.lines = s.lines) :
    NamesWell continued (modifyGet g : LowerM Store α) :=
  fun s hs => ends_modifyGet ⟨hs.of_lines (hg s), .of_lines (hg s)⟩

theorem namesWell_append (m : Method) (ln : UInt32) (d : Draft) : NamesWell continued (append m ln d) :=
  fun s hs => ends_append (hs.unnamed (hs.linked.append m ln d) (s.append_lines m ln d) rfl)

theorem namesWell_linkExit (a : Address) : NamesWell continued (modify (·.linkExit a) : LowerM Store Unit) := by
  intro s hs
  have hlength := (s.forall₂_linkExit a).length_eq
  exact ends_modify ⟨hs.of_length (hs.linked.linkExit a) (.linkExit s a) hlength.symm, .linkExit s a⟩

theorem continueLast_names {m : Method} {s : Store} (hs : s.WellNamed continued)
    (hc : ∀ a, s.last? = some a → continued a) (hm : m = .execute ∨ m = .mutation) (place : Tree) (code : Code)
    (more : List Value) : (continueLast place m code more).Ends s
      (fun _ t => t.WellNamed continued ∧ s.Carries continued t) fun _ _ => True := by
  have hcarries : s.Carries continued (s.addArgsToLast m more).2 := .addArgsToLast hs.linked.keyed hc hm more
  have hsame := s.sameLinks_addArgsToLast m more
  refine Ends.bind (ends_modifyGet (ends_liftM_diagnostic (fun _ _ => ⟨?_, hcarries⟩) fun _ _ => trivial))
  exact hs.of_length (hs.linked.of_sameLinks hsame) hcarries hsame.length_eq.symm

theorem namesWell_targetsValue (service : Tree) : NamesWell continued (targetsValue service) := by
  intro s hs
  refine targetsValue_ends.mono ?_ fun _ _ _ => trivial
  rintro _ _ rfl
  exact ⟨hs, .of_lines rfl⟩

/-- An operand is read, and the header that it belongs to is appended. -/
theorem namesWell_header {t place : Tree} {m : Method} {f : Operand → Address → LowerM Store α}
    (hm : m ∈ [.if_, .elif, .while_, .return_]) (hf : ∀ o a, NamesWell continued (f o a)) :
    NamesWell continued (do
      let o ← headerOperand t p
      let a ← append m (← place.line) { args := some o.args, parent := p }
      f o a) := by
  intro s hs
  refine Ends.bind (headerOperand_ends.mono (fun o u ho => ?_) fun _ _ _ => trivial)
  refine Ends.bind (ends_liftM_missing (fun ln _ => ?_) fun _ => trivial)
  exact Ends.bind (ends_append ((hf o _).after (hs.header ho.1 hm ln)))

end LowerM

/-! ### Statements -/

section Statements

open LowerM

variable {continued : Address → Prop} {p : Option Address} {parts : List (Part Store)}

theorem lowerExpression_names (t : Tree) : NamesWell continued (lowerExpression t p) :=
  .lookUp fun _ => .read fun _ => .lookUp fun _ => (namesWell_append _ _ _).bind namesWell_pure

theorem lowerReturn_names (t : Tree) : NamesWell continued (lowerReturn t p) := by
  refine .ensured fun _ => ?_
  split
  · exact namesWell_header (by simp) fun _ => namesWell_pure
  · exact .lookUp fun _ => (namesWell_append _ _ _).bind namesWell_pure

theorem lowerBreak_names (t : Tree) : NamesWell continued (lowerBreak t p) :=
  .ensured fun _ => .lookUp fun _ => (namesWell_append _ _ _).bind namesWell_pure

theorem lowerThrow_names (t : Tree) : NamesWell continued (lowerThrow t p) :=
  .read fun _ => .lookUp fun _ => (namesWell_append _ _ _).bind namesWell_pure

theorem lowerImport_names (t : Tree) : NamesWell continued (lowerImport t) :=
  .lookUp fun _ => .lookUp fun _ => .read fun _ => namesWell_modifyGet fun _ => rfl

theorem callLine_names (t : Tree) : NamesWell continued (do let _ ← callLine t p) :=
  (NamesWell.of_emits fun _ => callLine_emits).bind namesWell_pure

variable (hparts : ∀ part ∈ parts, ∀ p, NamesWell continued (part.lower p))

include hparts

theorem lowerAll_names (p : Option Address) : NamesWell continued (Part.lowerAll parts p) := by
  induction parts with
  | nil => exact namesWell_pure ()
  | cons part rest ih =>
    exact (hparts part List.mem_cons_self p).bind fun _ => ih fun part' h => hparts part' (List.mem_cons_of_mem _ h)

theorem lowerTagged_names (tag : String) (p : Option Address) : NamesWell continued (Part.lowerTagged parts tag p) :=
  lowerAll_names (fun part h => hparts part (List.mem_filter.mp h).1) p

theorem lowerFirst_names (tag : String) (p : Option Address) : NamesWell continued (Part.lowerFirst parts tag p) := by
  unfold Part.lowerFirst
  split
  · exact namesWell_pure ()
  · rename_i part hfind
    exact hparts part (List.mem_of_find?_eq_some hfind) p

theorem lowerBody_names (header : Address) (output : Option (List String)) :
    NamesWell continued (Part.lowerBody parts header output) := by
  unfold Part.lowerBody
  split
  · exact namesWell_pure ()
  · rename_i body hfind
    refine (namesWell_modifyGet fun _ => rfl).bind fun _ => ?_
    exact (hparts body (List.mem_of_find?_eq_some hfind) _).bind fun _ => namesWell_modifyGet fun _ => rfl

theorem lowerService_names (t : Tree) : NamesWell continued (lowerService t parts p) := by
  unfold lowerService
  split
  all_goals
    first | refine (namesWell_pure _).bind fun service => ?_ | refine .lookUp fun service => ?_
    refine NamesWell.bind (namesWell_targetsValue service) fun targets => ?_
    split
    · refine NamesWell.bind (.of_emits fun s => valueCommand_emits (Or.inr rfl)) fun _ => ?_
      exact fun s hs => Ends.bind (ends_get (lowerBody_names hparts _ _ s hs))
    · refine .read fun call => .lookUp fun ln => ?_
      have hline : NamesWell continued (invoke service (·.execute ln call p)) := .of_emits fun s =>
        invoke_emits (fun _ _ => True) rfl (Or.inr rfl) fun _ _ => trivial
      exact hline.bind fun _ => lowerBody_names hparts _ _

theorem lowerMutation_names (t : Tree) : NamesWell continued (lowerMutation t parts p) := by
  unfold lowerMutation
  have hline : ∀ mutated : Tree, NamesWell continued (mutationLine mutated p) := fun _ =>
    .of_emits fun _ => mutationLine_emits
  split
  · exact (namesWell_pure _).bind fun _ => (hline _).bind fun _ => lowerBody_names hparts _ _
  · exact .lookUp fun _ => (hline _).bind fun _ => lowerBody_names hparts _ _

theorem lowerWhen_names (t : Tree) : NamesWell continued (lowerWhen t parts p) := by
  unfold lowerWhen
  refine .lookUp fun ln => ?_
  split
  · rename_i service _
    refine .read fun call => ?_
    have hline : NamesWell continued (invoke service (·.listen ln call p)) := .of_emits fun _ =>
      invoke_emits (fun _ _ => True) rfl (Or.inl rfl) fun _ _ => trivial
    exact hline.bind fun _ => lowerBody_names hparts _ _
  · exact .lookUp fun _ => .read fun _ => (namesWell_append _ _ _).bind fun _ => lowerBody_names hparts _ _

theorem lowerIf_names (t : Tree) : NamesWell continued (lowerIf t parts p) :=
  .lookUp fun _ => namesWell_header (by simp) fun _ _ => (lowerBody_names hparts _ _).bind fun _ =>
    (lowerTagged_names hparts _ p).bind fun _ => lowerFirst_names hparts _ p

theorem lowerElseIf_names (t : Tree) : NamesWell continued (lowerElseIf t parts p) :=
  .lookUp fun _ => namesWell_header (by simp) fun _ _ => (namesWell_linkExit _).bind fun _ => lowerBody_names hparts _ _

theorem lowerLastBranch_names (m : Method) (t : Tree) : NamesWell continued (lowerLastBranch m t parts p) :=
  .lookUp fun _ => (namesWell_append _ _ _).bind fun _ => (namesWell_linkExit _).bind fun _ => lowerBody_names hparts _ _

theorem lowerForeach_names (t : Tree) : NamesWell continued (lowerForeach t parts p) := by
  unfold lowerForeach
  refine .lookUp fun _ => ?_
  split
  · refine (namesWell_pure _).bind fun _ => .read fun _ => .lookUp fun _ => ?_
    exact (namesWell_append _ _ _).bind fun _ => lowerBody_names hparts _ _
  · exact (namesWell_throw _).bind fun _ => .read fun _ => .lookUp fun _ =>
      (namesWell_append _ _ _).bind fun _ => lowerBody_names hparts _ _

theorem lowerTry_names (t : Tree) : NamesWell continued (lowerTry t parts p) :=
  .lookUp fun _ => (namesWell_append _ _ _).bind fun _ => (lowerBody_names hparts _ _).bind fun _ =>
    (lowerFirst_names hparts _ p).bind fun _ => lowerFirst_names hparts _ p

theorem lowerCatch_names (t : Tree) : NamesWell continued (lowerCatch t parts p) :=
  .lookUp fun _ => .lookUp fun _ => (namesWell_append _ _ _).bind fun _ =>
    (namesWell_linkExit _).bind fun _ => lowerBody_names hparts _ _

theorem lowerWhile_names (t : Tree) : NamesWell continued (lowerWhile t parts p) := by
  refine .lookUp fun statement => .lookUp fun ln => ?_
  intro s hs
  refine Ends.bind (headerOperand_ends.mono (fun o u ho => ?_) fun _ _ _ => trivial)
  refine Ends.bind (ends_append ?_)
  have hheader := hs.header ho.1 (m := .while_) (by simp) ln
  refine Ends.bind ((lowerBody_names hparts _ none _ hheader.1).mono (fun _ v hv => ?_) fun _ _ h => h)
  have hbody := hheader.2.trans hv.2
  split
  · exact ends_pure ⟨hv.1, hbody⟩
  · rename_i computed hline
    obtain ⟨j, c, w, hloop, rfl, hw⟩ := Store.WellNamed.loopOperand ho.1 hline ln { args := some o.args, parent := p }
    obtain ⟨c', w', hloop', hcr, hw'⟩ := hloop.carries hv.2
    have hcopy := hv.1.copyLine hloop' ln
    rw [hcr.address, hw', hw] at hcopy
    exact Ends.bind (ends_modifyGet (ends_pure ⟨hcopy.1, hbody.trans hcopy.2⟩))

theorem lowerFunction_names (t : Tree) : NamesWell continued (lowerFunction t parts p) := by
  refine .lookUp fun statement => .read fun token => .read fun parameters => .lookUp fun returns => .lookUp fun ln => ?_
  have hrest : ∀ header, NamesWell continued (lowerDeclared parts statement token.value header parameters) := by
    intro header
    refine (namesWell_modifyGet fun s => s.declareFunction_lines token.value header).bind fun previous => ?_
    cases previous with
    | none => exact lowerBody_names hparts _ _
    | some _ => exact (namesWell_throw _).bind fun _ => lowerBody_names hparts _ _
  have hline : ∀ (s : Store) d, s.WellNamed continued →
      (s.append .function ln d).2.WellNamed continued ∧ s.Carries continued (s.append .function ln d).2 :=
    fun s d hs => hs.unnamed (hs.linked.append _ ln d) (s.append_lines _ ln d) rfl
  intro s hs
  refine Ends.bind (ends_append ?_)
  cases returns with
  | none => exact (hrest _).after (hline s _ hs)
  | some names =>
    refine Ends.bind (ends_outputLast ?_)
    rw [s.outputLast_append]
    exact (hrest _).after (hline s _ hs)

end Statements

/-! ### Targets -/

/-- Whether the target of an assignment starts with a name. -/
def Tree.targetNamed (t : Tree) : Bool :=
  (t.child? "path").all fun path => (path.tokenAt? 0).any (·.kind == "NAME")

/-- Whether a statement adds operands to the line before it. -/
def Tree.isContinuation (t : Tree) : Bool :=
  t.tag == "arguments" || t.tag == "indented_chain"

section Targets

open LowerM

variable {continued : Address → Prop} {p : Option Address} {s : Store} {t : Tree} {parts : List (Part Store)}

theorem Tree.has_of_checkNames {path : Tree} (h : path.checkNames = .ok ()) {name : String}
    (hname : name ∈ path.spelledNames) : Text.has name '-' = false := by
  have hone := forM_eq_ok.mp h name hname
  obtain ⟨-, -, hdash⟩ := except_bind_eq_ok.mp hone
  simpa using Tree.ensure_ok hdash

/-- The name that a target starts with has no dash, so it is not the name of a variable for operands. -/
theorem Tree.root_of_targetNamed {target : Tree} {path : List Segment} (ht : t.targetNamed = true)
    (hchild : t.child? "path" = some target) (hnames : target.checkNames = .ok ())
    (hpath : target.readSegments = .ok path) :
    ∃ root rest, path = .name root :: rest ∧ Text.isOperandName root = false := by
  obtain ⟨token, rest, hchildren, hkind⟩ : ∃ token rest, target.children = .token token :: rest ∧ token.kind = "NAME" := by
    obtain ⟨tag, children⟩ := target
    rcases children with _ | ⟨_ | token, rest⟩
    · simp [Tree.targetNamed, hchild, Tree.tokenAt?] at ht
    · simp [Tree.targetNamed, hchild, Tree.tokenAt?, Child.token?] at ht
    · exact ⟨token, rest, rfl, by simpa [Tree.targetNamed, hchild, Tree.tokenAt?, Child.token?] using ht⟩
  rw [Tree.readSegments, hchildren, Tree.segmentsOf] at hpath
  obtain ⟨segments, -, hsegments⟩ := except_bind_eq_ok.mp hpath
  obtain rfl := Except.ok.inj hsegments
  have hspelled : token.value ∈ target.spelledNames := by simp [Tree.spelledNames, hchildren, hkind]
  refine ⟨token.value, segments, rfl, ?_⟩
  by_contra hroot
  have hdash := Text.has_dash_of_isOperandName (by simpa using hroot)
  simp [Tree.has_of_checkNames hnames hspelled] at hdash

/-- An assignment appends one line, which is named by the target. -/
theorem lowerAssignment_ends (ht : t.targetNamed = true) :
    (lowerAssignment t p).Ends s (fun _ u => ∃ m ln d root rest, Text.isOperandName root = false ∧
      u = (s.emit m ln d).nameLast (.name root :: rest)) fun _ _ => True := by
  unfold lowerAssignment
  refine Ends.bind (ends_liftM_missing (fun target htarget => ?_) fun _ => trivial)
  refine Ends.bind (ends_liftM_diagnostic (fun _ hnames => ?_) fun _ _ => trivial)
  refine Ends.bind (ends_liftM_malformed (fun path hpath => ?_) fun _ => trivial)
  refine Ends.bind (ends_liftM_missing (fun fragment _ => ?_) fun _ => trivial)
  refine Ends.bind (ends_liftM_malformed (fun operand _ => ?_) fun _ => trivial)
  refine Ends.bind (operandLine_emits.mono ?_ fun _ _ _ => trivial)
  rintro _ u ⟨m, ln, d, -, -, -, rfl⟩
  obtain ⟨root, rest, rfl, hroot⟩ := Tree.root_of_targetNamed ht (Tree.child?_of_child htarget) hnames hpath
  exact ends_modify ⟨m, ln, d, root, rest, hroot, rfl⟩

theorem lowerAssignment_names (ht : t.targetNamed = true) : NamesWell continued (lowerAssignment t p) := by
  intro s hs
  refine (lowerAssignment_ends ht).mono ?_ fun _ _ h => h
  rintro _ _ ⟨m, ln, d, root, rest, hroot, rfl⟩
  have hlines := s.nameLast_emit_lines m ln d (.name root :: rest)
  refine ⟨hs.concat ((hs.linked.emit m ln d).nameLast _) hlines fun root' hassigned hoperand => ?_, .concat hlines⟩
  obtain rfl : root = root' := Option.some.inj hassigned
  rw [hroot] at hoperand
  cases hoperand

/-! ### Whole trees -/

theorem Statement.tag_of_ofTag? {tag : String} {kind : Statement} (h : Statement.ofTag? tag = some kind) :
    (kind = .assignment → tag = "assignment") ∧ (kind = .chain → tag = "indented_chain") ∧
      (kind = .arguments → tag = "arguments") := by
  unfold Statement.ofTag? at h
  split at h <;> cases h <;> simp

theorem statement_names (hs : s.WellNamed continued) (htarget : t.tag = "assignment" → t.targetNamed = true)
    (hcontinued : t.isContinuation = true → ∀ a, s.last? = some a → continued a)
    (hparts : ∀ part ∈ parts, ∀ p, NamesWell continued (part.lower p)) :
    (statement t parts p).Ends s (fun _ u => u.WellNamed continued ∧ s.Carries continued u) fun _ _ => True := by
  unfold statement
  cases hkind : Statement.ofTag? t.tag with
  | none => exact ends_throw trivial
  | some kind =>
    cases kind with
    | container => exact lowerAll_names hparts p s hs
    | assignment => exact lowerAssignment_names (htarget ((Statement.tag_of_ofTag? hkind).1 rfl)) s hs
    | absoluteExpression => exact lowerExpression_names t s hs
    | service => exact lowerService_names hparts t s hs
    | mutation => exact lowerMutation_names hparts t s hs
    | chain =>
      have hlast := hcontinued (by simp [Tree.isContinuation, (Statement.tag_of_ofTag? hkind).2.1])
      refine Ends.bind (ends_liftM_malformed (fun more _ => ?_) fun _ => trivial)
      exact continueLast_names hs hlast (Or.inr rfl) t _ more
    | arguments =>
      have hlast := hcontinued (by simp [Tree.isContinuation, (Statement.tag_of_ofTag? hkind).2.2])
      refine Ends.bind (ends_liftM_malformed (fun arguments _ => ?_) fun _ => trivial)
      exact continueLast_names hs hlast (Or.inl rfl) t _ _
    | call => exact callLine_names t s hs
    | when => exact lowerWhen_names hparts t s hs
    | if_ => exact lowerIf_names hparts t s hs
    | elseIf => exact lowerElseIf_names hparts t s hs
    | else_ => exact lowerLastBranch_names hparts .else_ t s hs
    | foreach => exact lowerForeach_names hparts t s hs
    | while_ => exact lowerWhile_names hparts t s hs
    | try_ => exact lowerTry_names hparts t s hs
    | catch_ => exact lowerCatch_names hparts t s hs
    | finally_ => exact lowerLastBranch_names hparts .finally_ t s hs
    | function => exact lowerFunction_names hparts t s hs
    | return_ => exact lowerReturn_names t s hs
    | break_ => exact lowerBreak_names t s hs
    | throw => exact lowerThrow_names t s hs
    | import_ => exact lowerImport_names t s hs

theorem Tree.lowerUntil_names {stop : Tree → Option Address → Store → Bool} {report : Tree → Option Address → Diagnostic}
    (hstop : ∀ c q s, stop c q s = false → c.isContinuation = true → ∀ a, s.last? = some a → continued a) (t : Tree)
    (htarget : ∀ c ∈ t.descendants, c.tag = "assignment" → c.targetNamed = true) (p : Option Address) :
    NamesWell continued (t.lowerUntil stop report p) := by
  induction t using subtreeInduction generalizing p with
  | step t ih =>
    intro s hs
    unfold Ends
    rw [lowerUntil_run]
    cases hrun : stop t p s with
    | true => trivial
    | false =>
      refine statement_names hs (htarget t t.self_mem_descendants) (hstop t p s hrun) fun part hpart p => ?_
      obtain ⟨c, hc, rfl⟩ := List.mem_map.mp hpart
      exact ih c hc (fun d hd => htarget d (mem_descendants.mpr (Or.inr ⟨c, hc, hd⟩))) p

end Targets

/-- A statement begins that continues the line at this address. -/
def Tree.ContinuesAt (t : Tree) (a : Address) : Prop :=
  ∃ c q u, t.Begins c q u ∧ c.isContinuation = true ∧ u.last? = some a

theorem Store.wellNamed_empty (continued : Address → Prop) : ({} : Store).WellNamed continued :=
  ⟨Store.linked_empty, fun _ _ h => by simp at h⟩

open Classical in
theorem Tree.lower_wellNamed {t : Tree} {v : Store} (hv : t.lower none {} = .ok () v)
    (htarget : ∀ c ∈ t.descendants, c.tag = "assignment" → c.targetNamed = true) : v.WellNamed t.ContinuesAt := by
  -- Lowering could be made to break off where it continues a line that is not counted as continued. It never does.
  let stop : Tree → Option Address → Store → Bool := fun c _ u =>
    decide (c.isContinuation = true ∧ ∃ a, u.last? = some a ∧ ¬t.ContinuesAt a)
  rcases lowerUntil_begins stop t with ⟨report, heq⟩ | ⟨c, q, u, hb, hstop⟩
  · have hnames : LowerM.NamesWell t.ContinuesAt (t.lowerUntil stop report none) := by
      refine t.lowerUntil_names (fun c q u hstop hc a ha => ?_) htarget none
      by_contra hnot
      exact of_decide_eq_false hstop ⟨hc, a, ha, hnot⟩
    exact ((hnames {} (Store.wellNamed_empty _)).of_ok (heq.trans hv)).1
  · obtain ⟨hc, a, ha, hnot⟩ := of_decide_eq_true hstop
    exact absurd ⟨c, q, u, hb, hc, ha⟩ hnot

theorem Tree.lower_assignment {c : Tree} {q : Option Address} {u v : Store} (htag : c.tag = "assignment")
    (ht : c.targetNamed = true) (hv : c.lower q u = .ok () v) :
    ∃ k root, v.lines[u.lines.length]? = some k ∧ k.assigned? = some root ∧ Text.isOperandName root = false := by
  rw [Tree.lower_eq, LowerM.statement, htag] at hv
  obtain ⟨m, ln, d, root, rest, hroot, rfl⟩ := (lowerAssignment_ends ht).of_ok hv
  refine ⟨{ u.newLine m ln d with name := some (.name root :: rest) }, root, ?_, rfl, hroot⟩
  rw [u.nameLast_emit_lines, (u.kept_linkedTo d.parent (u.fresh ln)).length_eq]
  simp

/-- If the targets of assignments start with names, a variable for operands is only assigned to by a line that
    computes the operand of the header after it, or by the line that repeats this at the end of a loop. The latter
    holds what the former does, and more operands at its end only if a statement continues it. No assignment of the
    program is to a variable for operands, and no two operands are computed into the same one. -/
theorem operand_variables_fresh {t : Tree} {m : Manifest}
    (htarget : ∀ c ∈ t.descendants, c.tag = "assignment" → c.targetNamed = true) (h : compile t = .ok m) :
    (∀ (i : Nat) (l : Line), m.lines[i]? = some l → ∀ root, l.assigned? = some root → Text.isOperandName root = true →
      OperandOf m.lines i l ∨ RepeatedOperand t.ContinuesAt m.lines l) ∧
    (∀ c q u v, t.Begins c q u → c.tag = "assignment" → c.lower q u = .ok () v →
      ∃ k root, v.lines[u.lines.length]? = some k ∧ k.assigned? = some root ∧ Text.isOperandName root = false) ∧
    ∀ (i j : Nat) (l k : Line), m.lines[i]? = some l → m.lines[j]? = some k → OperandOf m.lines i l →
      OperandOf m.lines j k → l.name = k.name → i = j := by
  unfold compile at h
  split at h
  · rename_i v hv
    obtain rfl := Except.ok.inj h
    have hnamed := Tree.lower_wellNamed hv htarget
    refine ⟨hnamed.accounted, fun c q u w hb htag hw => ?_, fun i j l k hl hk hi hj hname => ?_⟩
    · exact Tree.lower_assignment htag (htarget c hb.mem_descendants htag) hw
    · rw [hi.1, hj.1] at hname
      have haddress : l.address = k.address := Address.operandName_injective (by simpa using hname)
      exact hnamed.linked.keyed.index_eq hl hk haddress
  · cases h

/-- A loop whose condition is computed by a service, and a branch whose condition is computed by another one. -/
def Sample.polling : Tree :=
  Shape.script [
    Shape.assignment "x" (Shape.values (Shape.int 1 1)) 1,
    Shape.whileBlock (Shape.service "db" (some "poll") [] [] 2) [Shape.assignment "x" (Shape.values (Shape.int 2 3)) 3] 2,
    Shape.ifBlock (Shape.service "cache" none [] [] 4) [] 4 []]

theorem operand_variables_fresh_polling :
    (∀ c ∈ Sample.polling.descendants, c.tag = "assignment" → c.targetNamed = true) ∧
    (∃ m, compile Sample.polling = .ok m ∧
      m.lines.map (·.assigned?) = [some "x", some "__p-2", none, some "x", some "__p-2", some "__p-4", none] ∧
      ∀ i ∈ [1, 4, 5], ∃ l, m.lines[i]? = some l ∧
        (OperandOf m.lines i l ∨ RepeatedOperand Sample.polling.ContinuesAt m.lines l)) ∧
    ∃ c v k root, Sample.polling.Begins c none {} ∧ c.tag = "assignment" ∧ c.lower none ({} : Store) = .ok () v ∧
      v.lines[0]? = some k ∧ k.assigned? = some root ∧ Text.isOperandName root = false := by
  have htarget : ∀ c ∈ Sample.polling.descendants, c.tag = "assignment" → c.targetNamed = true := by decide +kernel
  obtain ⟨m, hm⟩ := ok_of_isOk (x := compile Sample.polling) (by decide +kernel)
  have hassigned : (compile Sample.polling).map (fun m => m.lines.map (·.assigned?)) =
      .ok [some "x", some "__p-2", none, some "x", some "__p-2", some "__p-4", none] := by decide +kernel
  rw [hm] at hassigned
  have hassigned : m.lines.map (·.assigned?) = _ := Except.ok.inj hassigned
  obtain ⟨hlines, hassignments, -⟩ := operand_variables_fresh htarget hm
  refine ⟨htarget, ⟨m, hm, hassigned, fun i hi => ?_⟩, ?_⟩
  · have hroot : ∃ root, (m.lines.map (·.assigned?))[i]? = some (some root) ∧ Text.isOperandName root = true := by
      rw [hassigned]
      fin_cases hi <;> exact ⟨_, rfl, by decide⟩
    obtain ⟨root, hget, hroot⟩ := hroot
    rw [List.getElem?_map] at hget
    obtain ⟨l, hl, hassigned⟩ := Option.map_eq_some_iff.mp hget
    exact ⟨l, hl, hlines i l hl root hassigned hroot⟩
  · obtain ⟨v, hv⟩ : ∃ v, (Shape.assignment "x" (Shape.values (Shape.int 1 1)) 1).lower none ({} : Store) = .ok () v :=
      ⟨_, rfl⟩
    have hb : Sample.polling.Begins (Shape.assignment "x" (Shape.values (Shape.int 1 1)) 1) none {} :=
      ⟨fun c _ _ => c.tag == "assignment", fun _ => rfl⟩
    obtain ⟨k, root, hk, hroot⟩ := hassignments _ none {} v hb rfl hv
    exact ⟨_, v, k, root, hb, rfl, hv, hk, hroot⟩

/-- A loop whose condition is computed by a service, and an argument after it. -/
def Sample.repeated : Tree :=
  Shape.script [
    Shape.whileBlock (Shape.service "db" none [] [] 1) [] 1,
    Shape.argument (some "k") (Shape.path "v" 2) 2]

/-- An argument after a loop goes to the line that repeats its condition, which then is no copy. -/
theorem repeated_operand_continued :
    ∃ m c w l, compile Sample.repeated = .ok m ∧ m.lines = [c, w, l] ∧ w.method = .while_ ∧ l.parent = some w.address ∧
      c.assigned? = some c.address.operandName ∧ l.assigned? = c.assigned? ∧ l.args ≠ c.args := by
  obtain ⟨m, hm⟩ := ok_of_isOk (x := compile Sample.repeated) (by decide +kernel)
  have hplaces : (compile Sample.repeated).map (fun m => m.lines.map fun l => (l.address, l.parent, l.method)) =
      .ok [(⟨"1"⟩, none, .execute), (⟨"1.1"⟩, none, .while_), (⟨"1.2"⟩, some ⟨"1.1"⟩, .execute)] := by decide +kernel
  have hvalues : (compile Sample.repeated).map (fun m => m.lines.map fun l => (l.assigned?, l.args.map List.length)) =
      .ok [(some "__p-1", some 0), (none, some 1), (some "__p-1", some 1)] := by decide +kernel
  rw [hm] at hplaces hvalues
  have hplaces := Except.ok.inj hplaces
  have hvalues := Except.ok.inj hvalues
  obtain ⟨c, w, l, hlines⟩ : ∃ c w l, m.lines = [c, w, l] := by
    have hlength := congrArg List.length hplaces
    rw [List.length_map] at hlength
    exact List.length_eq_three.mp hlength
  simp only [hlines, List.map_cons, List.map_nil, List.cons.injEq, Prod.mk.injEq] at hplaces hvalues
  obtain ⟨⟨hc, -⟩, ⟨hw, -, hmethod⟩, ⟨-, hparent, -⟩, -⟩ := hplaces
  obtain ⟨⟨hassigned, hargs⟩, -, ⟨hassigned', hargs'⟩, -⟩ := hvalues
  refine ⟨m, c, w, l, hm, hlines, hmethod, hparent.trans (congrArg some hw.symm), ?_, hassigned'.trans hassigned.symm, ?_⟩
  · rw [hassigned, hc]
    rfl
  · intro hsame
    rw [hsame, hargs] at hargs'
    simp at hargs'

end Flowline
