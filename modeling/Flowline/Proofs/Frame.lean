import Flowline.Proofs.Checked
import Flowline.Proofs.Sessions

/-! The frame of a lowering. Statements under a parent append lines; of the lines that were there, only the
    last is linked to what follows and can be continued, only the parent can be entered, and only branches
    under the parent can get a way out. The registries grow at their ends. All this holds of a lowering that
    breaks off as well. -/

namespace Flowline

/-! ### The last line -/

/-- What happens to a line from before, as far as it depends on being the last one. -/
structure Line.Continued (last : Prop) (l l' : Line) : Prop where
  method : l'.method = l.method
  next : l'.next = l.next ∨ last
  args : l'.args = l.args ∨
    last ∧ (l.method = .execute ∨ l.method = .mutation) ∧ ∃ more, l'.args = some (l.args.getD [] ++ more)

theorem Line.Continued.of_eq {last : Prop} {l l' : Line} (hm : l'.method = l.method) (hn : l'.next = l.next)
    (ha : l'.args = l.args) : l.Continued last l' :=
  ⟨hm, Or.inl hn, Or.inl ha⟩

/-- Operands that are added at the end twice can be added at once. -/
theorem args_added_twice {x y z : Option (List Value)} {more : List Value}
    (hy : y = x ∨ ∃ more, y = some (x.getD [] ++ more)) (hz : z = some (y.getD [] ++ more)) :
    ∃ more, z = some (x.getD [] ++ more) := by
  rcases hy with rfl | ⟨more', rfl⟩
  · exact ⟨more, hz⟩
  · exact ⟨more' ++ more, by rw [hz, Option.getD_some, List.append_assoc]⟩

theorem Line.Continued.trans {last last' : Prop} {x y z : Line} (h : x.Continued last y) (h' : y.Continued last' z)
    (hlast : last' → last) : x.Continued last z where
  method := h'.method.trans h.method
  next := by
    rcases h'.next with hz | hz
    · rw [hz]
      exact h.next
    · exact Or.inr (hlast hz)
  args := by
    rcases h'.args with hz | ⟨hz, hm, more, hargs⟩
    · rw [hz]
      exact h.args
    · rw [h.method] at hm
      exact Or.inr ⟨hlast hz, hm, args_added_twice (h.args.imp_right (·.2.2)) hargs⟩

namespace Store

/-- From `s` to `t` lines were added at the end, where the last one was continued at most, and the registries
    were added to at their ends. -/
structure Extends (s t : Store) : Prop where
  lines : ∀ (i : Nat) (l : Line), s.lines[i]? = some l →
    ∃ l', t.lines[i]? = some l' ∧ l.Continued (i + 1 = s.lines.length) l'
  modules : s.modules <+: t.modules
  functions : s.functions <+: t.functions
  services : s.services <+: t.services

variable {s t u : Store} {p : Option Address}

theorem Extends.length_le (h : Extends s t) : s.lines.length ≤ t.lines.length := by
  by_contra hlt
  obtain ⟨l', hl', -⟩ := h.lines t.lines.length _ (List.getElem?_eq_getElem (by omega))
  simp at hl'

theorem Extends.trans (h : Extends s t) (h' : Extends t u) : Extends s u where
  lines i l hl := by
    obtain ⟨l', hl', hc⟩ := h.lines i l hl
    obtain ⟨l'', hl'', hc'⟩ := h'.lines i l' hl'
    have hle := h.length_le
    have hlt := (List.getElem?_eq_some_iff.mp hl).1
    exact ⟨l'', hl'', hc.trans hc' fun hlast => by omega⟩
  modules := h.modules.trans h'.modules
  functions := h.functions.trans h'.functions
  services := h.services.trans h'.services

/-- The registries of two stores are the same. -/
structure SameRegistries (s t : Store) : Prop where
  modules : t.modules = s.modules
  functions : t.functions = s.functions
  services : t.services = s.services

theorem Extends.of_registries (hr : SameRegistries s t)
    (hl : ∀ (i : Nat) (l : Line), s.lines[i]? = some l →
      ∃ l', t.lines[i]? = some l' ∧ l.Continued (i + 1 = s.lines.length) l') : Extends s t :=
  ⟨hl, by rw [hr.modules], by rw [hr.functions], by rw [hr.services]⟩

theorem continued_of_lines (h : t.lines = s.lines) (i : Nat) (l : Line) (hl : s.lines[i]? = some l) :
    ∃ l', t.lines[i]? = some l' ∧ l.Continued (i + 1 = s.lines.length) l' :=
  ⟨l, h ▸ hl, .of_eq rfl rfl rfl⟩

theorem Extends.refl (s : Store) : Extends s s :=
  .of_registries ⟨rfl, rfl, rfl⟩ (continued_of_lines rfl)

/-- Lines may change in place in all but their methods, operands and order. -/
theorem Extends.of_forall₂ (hr : SameRegistries s t)
    (h : List.Forall₂ (fun l l' : Line => l'.method = l.method ∧ l'.next = l.next ∧ l'.args = l.args) s.lines t.lines) :
    Extends s t := by
  refine .of_registries hr fun i l hl => ?_
  obtain ⟨l', hl', hm, hn, ha⟩ := forall₂_getElem?_left h hl
  exact ⟨l', hl', .of_eq hm hn ha⟩

/-- A line that is appended is linked to from the last one alone. -/
theorem Extends.concat {parent : Option Address} {a : Address} {k : Line} (hr : SameRegistries s t)
    (hl : t.lines = s.linkedTo parent a ++ [k]) : Extends s t := by
  refine .of_registries hr fun i l hi => ?_
  have hsame : ∀ x : Line, (Line.enteredBy parent a x).method = x.method ∧
      (Line.enteredBy parent a x).next = x.next ∧ (Line.enteredBy parent a x).args = x.args := fun x => by
    rw [enteredBy_eq]
    exact ⟨rfl, rfl, rfl⟩
  rcases List.eq_nil_or_concat s.lines with hs | ⟨init, last, hs⟩
  · simp [hs] at hi
  · rw [List.concat_eq_append] at hs
    rw [hl, linkedTo_concat hs]
    rw [hs] at hi ⊢
    rcases getElem?_concat_cases hi with hi | ⟨rfl, rfl⟩
    · obtain ⟨hm, hn, ha⟩ := hsame l
      refine ⟨_, getElem?_append_some (getElem?_append_some ?_), .of_eq hm hn ha⟩
      rw [List.getElem?_map, hi, Option.map_some]
    · obtain ⟨hm, -, ha⟩ := hsame { l with next := some a }
      refine ⟨Line.enteredBy parent a { l with next := some a }, getElem?_append_some ?_, hm, Or.inr ?_, Or.inl ha⟩
      · simp
      · simp

/-! ### Operations -/

theorem Extends.append (s : Store) (m : Method) (ln : UInt32) (d : Draft) : Extends s (s.append m ln d).2 :=
  .concat ⟨rfl, rfl, rfl⟩ (s.append_lines m ln d)

theorem Extends.registerService (s : Store) (name : String) : Extends s (s.registerService name) := by
  unfold Store.registerService
  split
  · exact .refl s
  · exact ⟨continued_of_lines rfl, List.prefix_rfl, List.prefix_rfl, List.prefix_append _ _⟩

theorem Extends.registerFor (s : Store) (m : Method) (service : Option String) :
    Extends s (s.registerFor m service) := by
  unfold Store.registerFor
  split
  · exact .refl s
  · split
    · exact .refl s
    · exact .registerService s _

theorem Extends.emit (s : Store) (m : Method) (ln : UInt32) (d : Draft) : Extends s (s.emit m ln d) :=
  (Extends.registerFor s m d.service).trans (.append _ m ln d)

theorem Extends.nameLast (s : Store) (path : List Segment) : Extends s (s.nameLast path) :=
  .of_forall₂ ⟨rfl, rfl, rfl⟩ (Line.forall₂_updateLast (fun _ => ⟨rfl, rfl, rfl⟩) (fun _ => ⟨rfl, rfl, rfl⟩) _)

theorem Extends.linkExit (s : Store) (a : Address) : Extends s (s.linkExit a) := by
  refine .of_forall₂ ?_ ((s.forall₂_linkExit a).imp fun l l' h => by rw [h]; exact ⟨rfl, rfl, rfl⟩)
  rcases s.linkExit_cases a with heq | ⟨_, _, _, _, _, -, -, -, -, -, heq⟩ <;> rw [heq] <;> exact ⟨rfl, rfl, rfl⟩

theorem Extends.copyLine (s : Store) (a : Address) (ln : UInt32) (parent : Option Address) :
    Extends s (s.copyLine a ln parent).2 := by
  rcases s.copyLine_cases a ln parent with ⟨-, heq⟩ | ⟨line, -, heq⟩ <;> rw [heq]
  · exact .refl s
  · exact .concat (s := s) ⟨rfl, rfl, rfl⟩ rfl

theorem Extends.declareFunction (s : Store) (name : String) (a : Address) :
    Extends s (s.declareFunction name a).2 := by
  unfold Store.declareFunction
  split
  · exact .refl s
  · exact ⟨continued_of_lines rfl, List.prefix_rfl, List.prefix_append _ _, List.prefix_rfl⟩

/-- The last line alone has the last address, so it alone is continued. -/
theorem Extends.addArgsToLast (hs : Keyed s.lines) {m : Method} (hm : m = .execute ∨ m = .mutation)
    (more : List Value) : Extends s (s.addArgsToLast m more).2 := by
  rcases s.addArgsToLast_cases m more with heq | ⟨a, ha, heq⟩ <;> rw [heq]
  · exact .refl s
  rcases s.addArgs_cases a m more with heq | ⟨line, hline, hmethod, heq⟩ <;> rw [heq]
  · exact .refl s
  refine .of_registries ⟨rfl, rfl, rfl⟩ fun i l hl => ?_
  refine ⟨if l.address = a then l.addArgs more else l, by rw [List.getElem?_map, hl, Option.map_some], ?_⟩
  split
  · rename_i hla
    obtain ⟨hmem, hline'⟩ := s.line?_eq_some hline
    have hlm : l.method = m := by
      rw [eq_of_address hs (List.mem_of_getElem? hl) hmem (hla.trans hline'.symm), hmethod]
    have hlast : i + 1 = s.lines.length := by
      obtain ⟨k, hk, hka⟩ := Option.map_eq_some_iff.mp ha
      rw [List.getLast?_eq_getElem?] at hk
      have hi := hs.index_eq hl hk (hla.trans hka.symm)
      have hlt := (List.getElem?_eq_some_iff.mp hl).1
      omega
    exact ⟨rfl, Or.inl rfl, Or.inr ⟨hlast, hlm ▸ hm, more, rfl⟩⟩
  · exact .of_eq rfl rfl rfl

end Store

/-! ### Whole derivations -/

section Derivations

variable {p : Option Address} {s t : Store} {o : Outcome} {h : Address} {names : List String}

theorem Opens.extends (ho : Opens p s h names t) : Store.Extends s t := by
  cases ho with
  | plain => exact .emit s _ _ _
  | linked => exact (Store.Extends.emit s _ _ _).trans (.linkExit _ _)
  | declared => exact (Store.Extends.emit s _ _ _).trans (.declareFunction _ _ _)

theorem Store.Extends.scopes {sc : Scopes} (he : Store.Extends s t) : Store.Extends s { t with scopes := sc } :=
  ⟨he.lines, he.modules, he.functions, he.services⟩

theorem Store.Extends.of_scopes {sc : Scopes} (he : Store.Extends { s with scopes := sc } t) : Store.Extends s t :=
  ⟨he.lines, he.modules, he.functions, he.services⟩

theorem Lowers.extends (hl : Lowers p s o t) (hs : s.Linked) : Store.Extends s t := by
  induction hl with
  | @skip _ s | @stop _ s => exact .refl s
  | andThen h _ ih ih' => exact (ih hs).trans (ih' (h.linked hs))
  | imports => exact ⟨Store.continued_of_lines rfl, List.prefix_append _ _, List.prefix_rfl, List.prefix_rfl⟩
  | continues hm => exact .addArgsToLast hs.keyed hm _
  | line | redeclared => exact .emit _ _ _ _
  | named => exact (Store.Extends.emit _ _ _ _).trans (.nameLast _ _)
  | header ho => exact ho.extends
  | block ho _ _ ih => exact ho.extends.trans (ih ((ho.keeps_linked hs).of_lines rfl)).of_scopes.scopes
  | inside ho _ _ ih => exact ho.extends.trans (ih ((ho.keeps_linked hs).of_lines rfl)).of_scopes
  | loop _ _ _ _ _ ho _ ih =>
    have hbody := (ih ((ho.keeps_linked hs).of_lines rfl)).of_scopes
    exact ho.extends.trans (hbody.trans (Store.Extends.copyLine _ _ _ _).scopes)

end Derivations

/-! ### The frame -/

/-- A line from before, after statements under `p`, and whether it was the last one. -/
structure Line.Framed (p : Option Address) (last : Prop) (l l' : Line) : Prop where
  rest : l' = { l with args := l'.args, enter := l'.enter, exit := l'.exit, next := l'.next }
  next : l'.next = l.next ∨ last
  args : l'.args = l.args ∨
    last ∧ (l.method = .execute ∨ l.method = .mutation) ∧ ∃ more, l'.args = some (l.args.getD [] ++ more)
  enter : l'.enter = l.enter ∨ l.enter = none ∧ p = some l.address
  exit : l'.exit = l.exit ∨ l.method.isBranch = true ∧ l.parent = p

/-- What statements under `p` leave of a store. -/
structure Store.Framed (p : Option Address) (s t : Store) : Prop where
  lines : ∀ (i : Nat) (l : Line), s.lines[i]? = some l →
    ∃ l', t.lines[i]? = some l' ∧ l.Framed p (i + 1 = s.lines.length) l'
  modules : s.modules <+: t.modules
  functions : s.functions <+: t.functions
  services : s.services <+: t.services

theorem Lowers.framed {p : Option Address} {s t : Store} {o : Outcome} (hl : Lowers p s o t) (hs : s.Linked)
    (hg : s.Grounded) (hp : s.Has p) : Store.Framed p s t := by
  have hext := hl.extends hs
  obtain ⟨old, new, ht, hold, -⟩ := hl.grows hs hg hp
  refine ⟨fun i l hi => ?_, hext.modules, hext.functions, hext.services⟩
  obtain ⟨l', hl', hc⟩ := hext.lines i l hi
  obtain ⟨k, hk, hr⟩ := forall₂_getElem?_left hold hi
  have hsame : l' = k := by
    rw [ht, getElem?_append_some hk] at hl'
    exact (Option.some.inj hl').symm
  subst hsame
  exact ⟨l', hl', hr.rest, hc.next, hc.args, hr.enter, hr.exit⟩

/-- In any store that a session reaches and whose parents all name lines, a tree that is lowered under a
    parent keeps to its frame, whether the lowering ends or breaks off. -/
theorem lower_framed {p : Option Address} {s : Store} (t : Tree) (hs : s.Reachable) (hg : s.Grounded) (hp : s.Has p) :
    Store.Framed p s ((Step.lower t p).run s).2 := by
  obtain ⟨o, hlowers⟩ := t.lower_sound.lowers p s
  exact hlowers.framed hs.linked hg hp

/-- The code of the problem that an action ends with, if it ends with one. -/
def LowerM.code? (m : LowerM Store Unit) (s : Store) : Option Code :=
  match m s with
  | .ok _ _ => none
  | .error d _ => some d.code

theorem LowerM.error_of_code? {m : LowerM Store Unit} {s : Store} {c : Code} (h : m.code? s = some c) :
    ∃ d u, m s = .error d u ∧ d.code = c := by
  unfold code? at h
  cases hm : m s with
  | ok x u =>
    rw [hm] at h
    cases h
  | error d u =>
    rw [hm] at h
    exact ⟨d, u, rfl, Option.some.inj h⟩

/-- Operands for the line before, a chain of branches, and a statement of no kind. -/
def Sample.interrupted : Tree :=
  ⟨"nested_block", [node "arguments" [name "a" 2], .tree rescue, node "unknown" [word "NAME" "b" 15]]⟩

/-- The body of a service call continues it and then breaks off. -/
theorem lower_framed_interrupted :
    ∃ s u d, s.Reachable ∧ s.Grounded ∧ s.Has (some ⟨"1"⟩) ∧
      Sample.interrupted.lower (some ⟨"1"⟩) s = .error d u ∧ d.code = .unknownStatement ∧
      Store.Framed (some ⟨"1"⟩) s u := by
  let service : Tree := ⟨"service", [Sample.name "db" 1, Sample.node "service_fragment" []]⟩
  let s : Store := (Step.runAll {} [.lower service none]).2
  have hs : s.Reachable := ⟨_, rfl⟩
  have hg : s.Grounded := service.lower_sound.grounded none Store.linked_empty Store.grounded_empty (Store.has_none _)
  have hp : s.Has (some ⟨"1"⟩) := Store.has_of_any (by decide +kernel)
  have hcode : (Sample.interrupted.lower (some ⟨"1"⟩)).code? s = some .unknownStatement := by decide +kernel
  obtain ⟨d, u, hrun, hd⟩ := LowerM.error_of_code? hcode
  have hframed := lower_framed Sample.interrupted hs hg hp
  simp only [Step.run, Step.runOn, hrun] at hframed
  exact ⟨s, u, d, hs, hg, hp, hrun, hd, hframed⟩

end Flowline
