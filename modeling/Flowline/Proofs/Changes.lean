import Flowline.Proofs.Calls

/-! Lowering one change at a time. A derivation nests bodies in headers; as far as the lines and the registries
    go, it is a row of single changes, each of which appends a line or amends those that are there. What every
    single change keeps, a lowering keeps, whether it ends or breaks off. -/

namespace Flowline

/-- One change that lowering makes to the lines and to the registries of functions and services. -/
inductive Store.Changes (s : Store) : Store → Prop
  | amend {p : Option Address} {t : Store} (hl : List.Forall₂ (Line.Kept p) s.lines t.lines)
      (hf : t.functions = s.functions) (hv : t.services = s.services) : Changes s t
  | emit {p : Option Address} {t : Store} {m : Method} {ln : UInt32} {d : Draft} {name : Option (List Segment)}
      (hs : s.Ready p) (he : Emits s p m d)
      (hl : t.lines = s.linkedTo p (s.fresh ln) ++ [{ s.newLine m ln d with name }])
      (hf : t.functions = s.functions) (hv : t.services = (s.registerFor m d.service).services) : Changes s t
  | declare {p : Option Address} {t : Store} {ln : UInt32} {name : String} {parameters : List Argument}
      {returns : Option (List String)} (hp : s.Has p) (hn : s.function? name = none)
      (hl : t.lines = s.linkedTo p (s.fresh ln) ++ [s.newLine .function ln (.declaration name parameters returns p)])
      (hf : t.functions = s.functions ++ [(name, s.fresh ln)]) (hv : t.services = s.services) : Changes s t
  | redeclare {p : Option Address} {t : Store} {ln : UInt32} {name : String} {parameters : List Argument}
      {returns : Option (List String)} {previous : Address} (hp : s.Has p) (hn : s.function? name = some previous)
      (hl : t.lines = s.linkedTo p (s.fresh ln) ++ [s.newLine .function ln (.declaration name parameters returns p)])
      (hf : t.functions = s.functions) (hv : t.services = s.services) : Changes s t
  | copy {p : Option Address} {t : Store} {ln : UInt32} {line : Line} (hp : s.Has p) (hline : line ∈ s.lines)
      (hm : line.method.computes = true)
      (hl : t.lines = s.linkedTo p (s.fresh ln) ++
        [{ s.newLine line.method ln (line.draftUnder p) with name := line.name }])
      (hf : t.functions = s.functions) (hv : t.services = s.services) : Changes s t

namespace Store.Changes

variable {p : Option Address} {s t : Store} {m : Method} {ln : UInt32} {d : Draft}

theorem of_lines (hl : t.lines = s.lines) (hf : t.functions = s.functions) (hv : t.services = s.services) :
    s.Changes t :=
  .amend (p := none) (hl ▸ List.forall₂_same.mpr fun l _ => .refl l) hf hv

theorem of_emit (hs : s.Ready p) (he : Emits s p m d) : s.Changes (s.emit m ln d) :=
  .emit hs he (he.parent ▸ s.emit_lines m ln d) (s.emit_functions m ln d) rfl

theorem of_named (hs : s.Ready p) (he : Emits s p m d) (path : List Segment) :
    s.Changes ((s.emit m ln d).nameLast path) :=
  .emit hs he (he.parent ▸ s.nameLast_emit_lines m ln d path) (s.emit_functions m ln d) rfl

theorem of_addArgsToLast (hs : s.Ready p) (hm : m = .execute ∨ m = .mutation) (more : List Value) :
    s.Changes (s.addArgsToLast m more).2 := by
  have hkept : List.Forall₂ (Line.Kept p) s.lines (s.addArgsToLast m more).2.lines :=
    Store.kept_addArgsToLast hs.linked.keyed hm
  rcases s.addArgsToLast_cases m more with heq | ⟨a, -, heq⟩ <;> rw [heq] at hkept ⊢
  · exact .of_lines rfl rfl rfl
  · rcases s.addArgs_cases a m more with heq | ⟨_, -, -, heq⟩ <;> rw [heq] at hkept ⊢ <;> exact .amend hkept rfl rfl

theorem of_linkExit {a : Address} (hs : s.Ready p) (he : Emits s p m d)
    (ha : ∃ l ∈ (s.emit m ln d).lines, l.address = a ∧ l.parent = p) :
    (s.emit m ln d).Changes ((s.emit m ln d).linkExit a) := by
  have hl := he.parent ▸ s.emit_lines m ln d
  obtain ⟨old, hold, hkept⟩ := Store.linkExit_kept (hs.linked.emit m ln d).keyed hl ha
  refine .amend (p := p) ?_ ?_ ?_
  · rw [hl, hold]
    exact List.rel_append hkept (List.forall₂_same.mpr fun l _ => .refl l)
  all_goals
    rcases (s.emit m ln d).linkExit_cases a with heq | ⟨_, _, _, _, _, -, -, -, -, -, heq⟩ <;> rw [heq]

theorem of_declareFunction {name : String} {parameters : List Argument} {returns : Option (List String)}
    (hp : s.Has p) (hn : s.function? name = none) :
    s.Changes ((s.emit .function ln (.declaration name parameters returns p)).declareFunction name (s.fresh ln)).2 := by
  have hnone : (s.emit .function ln (.declaration name parameters returns p)).function? name = none := by
    rw [Store.function?, s.emit_functions]
    exact hn
  have hl : ((s.emit .function ln (.declaration name parameters returns p)).declareFunction name (s.fresh ln)).2.lines =
      s.linkedTo p (s.fresh ln) ++ [s.newLine .function ln (.declaration name parameters returns p)] := by
    rw [Store.declareFunction_lines, s.emit_lines]
    rfl
  refine .declare hp hn hl ?_ ?_ <;> simp only [Store.declareFunction, hnone, s.emit_functions]
  rfl

/-- A change keeps the lines there are, and adds at most one, under a line that is there or at the top. -/
theorem lines (h : s.Changes t) :
    ∃ q old new, t.lines = old ++ new ∧ List.Forall₂ (Line.Kept q) s.lines old ∧
      (new = [] ∨ ∃ k, new = [k] ∧ s.Has k.parent) := by
  cases h with
  | amend hl => exact ⟨_, t.lines, [], (List.append_nil _).symm, hl, Or.inl rfl⟩
  | @emit p _ m ln d name hs he hl =>
    have hparent : d.parent = p := he.parent
    exact ⟨_, _, _, hl, s.kept_linkedTo _ _, Or.inr ⟨_, rfl, show s.Has d.parent from hparent ▸ hs.has⟩⟩
  | declare hp _ hl => exact ⟨_, _, _, hl, s.kept_linkedTo _ _, Or.inr ⟨_, rfl, hp⟩⟩
  | redeclare hp _ hl => exact ⟨_, _, _, hl, s.kept_linkedTo _ _, Or.inr ⟨_, rfl, hp⟩⟩
  | copy hp _ _ hl => exact ⟨_, _, _, hl, s.kept_linkedTo _ _, Or.inr ⟨_, rfl, hp⟩⟩

theorem rooted (h : s.Changes t) (hs : Rooted s.lines) : Rooted t.lines := by
  obtain ⟨q, old, new, ht, hold, hnew⟩ := h.lines
  intro i l a hl hpa
  rw [ht] at hl ⊢
  -- A parent is found among the lines from before, which stay where they are.
  suffices hbefore : ∃ j x, j < i ∧ s.lines[j]? = some x ∧ x.address = a by
    obtain ⟨j, x, hj, hx, hxa⟩ := hbefore
    obtain ⟨x', hx', hr⟩ := forall₂_getElem?_left hold hx
    exact ⟨j, x', hj, getElem?_append_some hx', hr.address.trans hxa⟩
  rw [List.getElem?_append] at hl
  split at hl
  · obtain ⟨l', hl', hr⟩ := forall₂_getElem?_right hold hl
    exact hs i l' a hl' (hr.parent ▸ hpa)
  · rename_i hi
    rcases hnew with rfl | ⟨k, rfl, hk⟩
    · simp at hl
    · obtain rfl : l = k := by simpa using List.mem_of_getElem? hl
      obtain ⟨x, hx, hxa⟩ := hk a hpa
      obtain ⟨j, hj⟩ := List.mem_iff_getElem?.mp hx
      refine ⟨j, x, ?_, hj, hxa⟩
      have hlt := (List.getElem?_eq_some_iff.mp hj).1
      rw [hold.length_eq] at hlt
      omega

end Store.Changes

variable {p : Option Address} {s t : Store} {o : Outcome} {h : Address} {names : List String}

theorem Opens.changes (ho : Opens p s h names t) (hs : s.Ready p) : Relation.ReflTransGen Store.Changes s t := by
  cases ho with
  | plain he => exact .single (.of_emit hs he)
  | linked he _ ha => exact .tail (.single (.of_emit hs he)) (.of_linkExit hs he ha)
  | declared hn => exact .single (.of_declareFunction hs.has hn)

theorem Opens.changes_body (ho : Opens p s h names t) (hs : s.Ready p) (output : List String) :
    Relation.ReflTransGen Store.Changes s (t.openScope h output) :=
  (ho.changes hs).tail (.of_lines rfl rfl rfl)

theorem Lowers.changes (hl : Lowers p s o t) (hs : s.Ready p) : Relation.ReflTransGen Store.Changes s t := by
  induction hl with
  | skip | stop => exact .refl
  | andThen h _ ih ih' => exact (ih hs).trans (ih' (h.ready hs))
  | imports => exact .single (.of_lines rfl rfl rfl)
  | continues hm => exact .single (.of_addArgsToLast hs hm _)
  | line he => exact .single (.of_emit hs he)
  | named he => exact .single (.of_named hs he _)
  | @redeclared p s ln name parameters returns previous hn =>
    exact .single (.redeclare hs.has hn (s.emit_lines _ ln _) (s.emit_functions _ ln _) rfl)
  | header ho => exact ho.changes hs
  | block ho hout _ ih =>
    exact ((ho.changes_body hs _).trans (ih (ho.ready_body hs hout))).tail (.of_lines rfl rfl rfl)
  | inside ho hout _ ih => exact (ho.changes_body hs _).trans (ih (ho.ready_body hs hout))
  | @loop p s t u h c l ln hlast hc _ hm _ ho hbody ih =>
    have hready := ho.ready_body hs fun _ => rfl
    have hbefore := (ho.changes_body hs _).trans (ih hready)
    refine (hbefore.tail (c := (u.copyLine c ln (some h)).2) ?_).tail (.of_lines rfl rfl rfl)
    rcases u.copyLine_cases c ln (some h) with ⟨-, heq⟩ | ⟨line, hline, heq⟩ <;> rw [heq]
    · exact .of_lines rfl rfl rfl
    · refine .copy (hbody.ready hready).has (u.line?_eq_some hline).1 ?_ rfl rfl rfl
      rwa [(ho.condition_kept hs hbody hlast (hc ▸ hline)).method]

/-- What each change keeps, a lowering keeps. -/
theorem Lowers.keeps {I : Store → Prop} (hl : Lowers p s o t) (hs : s.Ready p)
    (hstep : ∀ {u v}, u.Changes v → I u → I v) (h : I s) : I t := by
  have hchanges := hl.changes hs
  clear hl
  induction hchanges with
  | refl => exact h
  | tail _ hchange ih => exact hstep hchange ih

theorem Scoped.has {ls : List Line} {q : Option Address} {frames : List Frame} (h : Scoped ls q frames) :
    ∀ a, q = some a → ∃ l ∈ ls, l.address = a := by
  rintro a rfl
  cases h with
  | @body h _ _ hh => exact ⟨h, hh, rfl⟩

/-- Wherever a statement begins, it can be lowered. -/
theorem Tree.Begins.ready {t c : Tree} {q : Option Address} {u : Store} (hb : t.Begins c q u) : u.Ready q := by
  have hl := hb.lowers
  have hgrows := hl.grows Store.linked_empty Store.grounded_empty (Store.has_none _)
  have hframes : Scoped u.lines q u.scopes.frames :=
    hl.keeps_scoped Store.linked_empty Store.grounded_empty (Store.has_none _) Store.ready_empty.frames
  exact ⟨hl.linked Store.linked_empty, hgrows.grounded Store.grounded_empty (Store.has_none _), hframes.has, hframes⟩

end Flowline
