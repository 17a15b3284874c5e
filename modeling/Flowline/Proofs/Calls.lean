import Flowline.Proofs.Frame
import Flowline.Proofs.Layout
import Flowline.Proofs.Scoping
import Flowline.Tree.Shape

/-! What calls call. A `call` line names a function that is declared before it, a function of an imported
    module, or a handle that a header around it binds. The first two are looked up in the registries, which
    agree with the lines; the third is a matter of scoping. -/

namespace Flowline

/-! ### Names with a dot -/

theorem Text.pieces_length (sep : Char) (cs : List Char) : (pieces sep cs).length = cs.count sep + 1 := by
  induction cs with
  | nil => rfl
  | cons c cs ih =>
    by_cases hc : c = sep
    · simp [pieces, hc, ih]
    · cases hp : pieces sep cs with
      | nil => simp [hp] at ih
      | cons first rest =>
        rw [hp] at ih
        simpa [pieces, hc, hp] using ih

theorem Text.pieces_head? (sep : Char) (cs : List Char) : (pieces sep cs).head? = some (cs.takeWhile (· != sep)) := by
  induction cs with
  | nil => rfl
  | cons c cs ih =>
    by_cases hc : c = sep
    · simp [pieces, hc]
    · cases hp : pieces sep cs with
      | nil => simp [hp] at ih
      | cons first rest =>
        rw [hp] at ih
        simpa [pieces, hc, hp] using ih

theorem Text.pieces_eq_splitOn (sep : Char) (cs : List Char) : pieces sep cs = cs.splitOn sep := by
  rw [List.splitOn_eq_splitOnP]
  induction cs with
  | nil => rfl
  | cons c cs ih =>
    rw [pieces, List.splitOnP_cons_eq_if_modifyHead, ih]
    by_cases hc : c = sep
    · simp [hc]
    · obtain ⟨first, rest, hp⟩ := List.exists_cons_of_ne_nil (List.splitOnP_ne_nil (· == sep) cs)
      simp [hc, hp]

/-- The text before the first dot, or all of it. -/
def Text.root (text : String) : String :=
  String.ofList (text.toList.takeWhile (· != '.'))

theorem Text.dotted_head? (text : String) : (dotted text).head? = some (root text) := by
  simp [dotted, root, pieces_head?]

theorem Text.dotted_length (text : String) : (dotted text).length = text.toList.count '.' + 1 := by
  simp [dotted, pieces_length]

/-! ### Stores in which statements are lowered -/

/-- Statements can be lowered under `p`: the links are whole, `p` and all parents name lines, and the open
    frames are those of `p`. -/
structure Store.Ready (p : Option Address) (s : Store) : Prop where
  linked : s.Linked
  grounded : s.Grounded
  has : s.Has p
  frames : Scoped s.lines p s.scopes.frames

section Ready

variable {p : Option Address} {s t u : Store} {h : Address} {names : List String}

theorem Store.ready_empty : ({} : Store).Ready none :=
  ⟨Store.linked_empty, Store.grounded_empty, Store.has_none _, .top ⟨rfl, fun _ => rfl⟩⟩

theorem Lowers.ready (hl : Lowers p s .done t) (hs : s.Ready p) : t.Ready p := by
  have hgrows := hl.grows hs.linked hs.grounded hs.has
  exact ⟨hl.linked hs.linked, hgrows.grounded hs.grounded hs.has, hgrows.has hs.has,
    hl.keeps_scoped hs.linked hs.grounded hs.has hs.frames⟩

theorem Opens.ready_body {output : List String} (ho : Opens p s h names t) (hs : s.Ready p)
    (hout : Keyed t.lines → output = names) : (t.openScope h output).Ready (some h) := by
  have ht := ho.keeps_linked hs.linked
  obtain rfl := hout ht.keyed
  exact ⟨ht.of_lines rfl, (ho.grows hs.linked).grounded hs.grounded hs.has, ho.has hs.linked,
    ho.scoped_body hs.linked hs.grounded hs.has hs.frames⟩

/-- The line before a header, which computes its condition, is still there when the body has been lowered. -/
theorem Opens.condition_kept {l line : Line} {output : List String} (ho : Opens p s h names t) (hs : s.Ready p)
    (hbody : Lowers (some h) (t.openScope h output) .done u) (hl : s.lines.getLast? = some l)
    (hline : u.line? l.address = some line) : l.Kept p line := by
  have ht : (t.openScope h output).Linked := (ho.keeps_linked hs.linked).of_lines rfl
  have hgrows := hbody.grows ht ((ho.grows hs.linked).grounded hs.grounded hs.has) (ho.has hs.linked)
  obtain ⟨old, new, hu, hold, -⟩ := ho.grows_body hs.linked hs.grounded hgrows
  obtain ⟨l', hl', hr⟩ := forall₂_mem_left hold l (List.mem_of_getLast? hl)
  obtain ⟨hmem, ha⟩ := u.line?_eq_some hline
  have hmem' : l' ∈ u.lines := by
    rw [hu]
    exact List.mem_append_left _ hl'
  rw [eq_of_address (hbody.linked ht).keyed hmem hmem' (ha.trans hr.address.symm)]
  exact hr

end Ready

/-! ### Declarations -/

/-- The function that a line declares. -/
def Line.declaration? (l : Line) : Option (String × Address) :=
  if l.method = .function then l.function.map fun name => (name, l.address) else none

/-- The registered functions are those that the lines declare, in order. -/
def Store.Registers (s : Store) : Prop :=
  s.functions = s.lines.filterMap Line.declaration?

section Declarations

variable {p : Option Address} {s t : Store} {h : Address} {names : List String}

theorem Line.Kept.declaration? {l l' : Line} (hr : l.Kept p l') : l'.declaration? = l.declaration? := by
  rw [hr.rest]
  rfl

theorem declarations_kept {ls ls' : List Line} (hr : List.Forall₂ (Line.Kept p) ls ls') :
    ls'.filterMap Line.declaration? = ls.filterMap Line.declaration? := by
  induction hr with
  | nil => rfl
  | cons hl _ ih => rw [List.filterMap_cons, List.filterMap_cons, hl.declaration?, ih]

theorem Store.Registers.kept (hs : s.Registers) (hr : List.Forall₂ (Line.Kept p) s.lines t.lines)
    (hf : t.functions = s.functions) : t.Registers := by
  rw [Store.Registers, hf, declarations_kept hr]
  exact hs

theorem Store.Registers.concat {old : List Line} {k : Line} (hs : s.Registers) (ht : t.lines = old ++ [k])
    (hold : List.Forall₂ (Line.Kept p) s.lines old) (hf : t.functions = s.functions ++ k.declaration?.toList) :
    t.Registers := by
  rw [Store.Registers, hf, ht, List.filterMap_append, declarations_kept hold, ← hs]
  cases hk : k.declaration? <;> simp [hk]

theorem Store.Registers.concat_other {old : List Line} {k : Line} (hs : s.Registers) (ht : t.lines = old ++ [k])
    (hold : List.Forall₂ (Line.Kept p) s.lines old) (hf : t.functions = s.functions) (hk : k.method ≠ .function) :
    t.Registers :=
  hs.concat ht hold (by simp [hf, Line.declaration?, hk])

theorem Store.Registers.emit (hs : s.Registers) {m : Method} {d : Draft} (he : Emits s p m d) (ln : UInt32) :
    (s.emit m ln d).Registers :=
  hs.concat_other (s.emit_lines m ln d) (s.kept_linkedTo d.parent _) (s.emit_functions m ln d) he.ne_function

theorem Opens.registers (ho : Opens p s h names t) (hk : s.Linked) (hs : s.Registers) : t.Registers := by
  cases ho with
  | plain he => exact hs.emit he _
  | @linked m ln d a he hm ha =>
    obtain ⟨old, hold, hkept⟩ := Store.linkExit_kept (hk.emit m ln d).keyed (s.emit_lines m ln d) ha
    refine (hs.emit he ln).kept (p := p) ?_ ?_
    · rw [s.emit_lines, hold]
      exact List.rel_append hkept (List.forall₂_same.mpr fun l _ => .refl l)
    · rcases (s.emit m ln d).linkExit_cases a with heq | ⟨_, _, _, _, _, -, -, -, -, -, heq⟩ <;> rw [heq]
  | @declared ln name parameters returns hn =>
    have hnone : (s.emit .function ln (.declaration name parameters returns p)).function? name = none := by
      rw [Store.function?, s.emit_functions]
      exact hn
    refine hs.concat (k := s.newLine .function ln (.declaration name parameters returns p)) ?_
      (s.kept_linkedTo p (s.fresh ln)) ?_
    · rw [Store.declareFunction_lines, s.emit_lines]
      rfl
    · simp only [Store.declareFunction, hnone, s.emit_functions]
      rfl

theorem Lowers.registers (hl : Lowers p s .done t) (hready : s.Ready p) (hs : s.Registers) : t.Registers := by
  generalize ho : Outcome.done = o at hl
  induction hl with
  | skip | imports => exact hs
  | stop | redeclared | inside => cases ho
  | andThen h _ ih ih' => exact ih' (h.ready hready) (ih hready hs rfl) ho
  | @continues p s m more hm =>
    refine hs.kept (p := p) (Store.kept_addArgsToLast hready.linked.keyed hm) ?_
    rcases s.addArgsToLast_cases m more with heq | ⟨a, -, heq⟩ <;> rw [heq]
    rcases s.addArgs_cases a m more with heq | ⟨_, -, -, heq⟩ <;> rw [heq]
  | line he => exact hs.emit he _
  | @named p s m ln d path he hm =>
    exact hs.concat_other (s.nameLast_emit_lines m ln d path) (s.kept_linkedTo d.parent _)
      (s.emit_functions m ln d) he.ne_function
  | header hopens => exact hopens.registers hready.linked hs
  | block hopens hout _ ih => exact ih (hopens.ready_body hready hout) (hopens.registers hready.linked hs) rfl
  | @loop p s t u h c l ln hlast hc _ hm _ hopens hbody ih =>
    have hu := ih (hopens.ready_body hready fun _ => rfl) (hopens.registers hready.linked hs) rfl
    change (u.copyLine c ln (some h)).2.Registers
    rcases u.copyLine_cases c ln (some h) with ⟨-, heq⟩ | ⟨line, hline, heq⟩ <;> rw [heq]
    · exact hu
    · -- The copy is one of a line that computes a condition, which declares nothing.
      have hkept := hopens.condition_kept hready hbody hlast (hc ▸ hline)
      have hne : line.method ≠ .function := by
        rw [hkept.method]
        intro hf
        rw [hf] at hm
        cases hm
      exact hu.concat_other rfl (u.kept_linkedTo (some h) _) rfl hne

end Declarations

/-! ### Callees -/

/-- What a call of `name` at position `i` under a parent calls. -/
inductive Callee (ls : List Line) (modules : List (String × String)) (i : Nat) (parent : Option Address)
    (name : String) : Prop
  /-- A function that a line before declares. -/
  | declared {j : Nat} {k : Line} (hj : j < i) (hk : ls[j]? = some k) (hm : k.method = .function)
      (hf : k.function = some name)
  /-- A function of an imported module. -/
  | imported {path : String} (hm : (Text.root name, path) ∈ modules) (hdot : name.toList.count '.' ≤ 1)
  /-- A handle that is bound by a service call or a listener around the call. -/
  | handle {a : Address} {h : Line} {names : List String} (hdot : '.' ∉ name.toList) (hp : parent = some a)
      (hw : Within ls a h.address) (hh : h ∈ ls) (hm : h.method ∈ [.execute, .call, .when])
      (ho : h.output = some names) (hn : name ∈ names)

/-- Every call has something that it calls. -/
def Resolved (ls : List Line) (modules : List (String × String)) : Prop :=
  ∀ (i : Nat) (l : Line), ls[i]? = some l → l.method = .call →
    ∃ name, l.service = some name ∧ Callee ls modules i l.parent name

section Callees

variable {p q : Option Address} {ls old new : List Line} {modules modules' : List (String × String)} {i j : Nat}
  {name : String}

theorem Callee.kept (hc : Callee ls modules i q name) (hold : List.Forall₂ (Line.Kept p) ls old)
    (hmod : modules <+: modules') (hij : i ≤ j) : Callee (old ++ new) modules' j q name := by
  cases hc with
  | declared hlt hk hm hf =>
    obtain ⟨k', hk', hr⟩ := forall₂_getElem?_left hold hk
    refine .declared (hlt.trans_le hij) (getElem?_append_some hk') (hr.method.trans hm) ?_
    rw [hr.rest, ← hf]
  | imported hm hdot => exact .imported (hmod.subset hm) hdot
  | @handle _ h _ hdot hp hw hh hm ho hn =>
    obtain ⟨h', hh', hr⟩ := forall₂_mem_left hold h hh
    have hw' := hw.of_forall₂ (fun hr => ⟨hr.address, hr.parent⟩) hold
    rw [← hr.address] at hw'
    exact .handle hdot hp hw'.append (List.mem_append_left _ hh') (hr.method ▸ hm) (hr.output.trans ho) hn

/-- A call in a body can call what the header of the body can. -/
theorem Callee.inside {h : Line} (hc : Callee ls modules i h.parent name) (hh : h ∈ ls) (hij : i ≤ j) :
    Callee ls modules j (some h.address) name := by
  cases hc with
  | declared hlt hk hm hf => exact .declared (hlt.trans_le hij) hk hm hf
  | imported hm hdot => exact .imported hm hdot
  | handle hdot hp hw hh' hm ho hn => exact .handle hdot rfl (.up hh hp hw) hh' hm ho hn

/-- Lines from before go on to call what they call, and new lines call what was there before them. -/
theorem Resolved.append (h : Resolved ls modules) (hold : List.Forall₂ (Line.Kept p) ls old)
    (hmod : modules <+: modules')
    (hnew : ∀ k ∈ new, k.method = .call → ∃ name, k.service = some name ∧ Callee ls modules ls.length k.parent name) :
    Resolved (old ++ new) modules' := by
  intro i l hl hm
  rw [List.getElem?_append] at hl
  split at hl
  · obtain ⟨k, hk, hr⟩ := forall₂_getElem?_right hold hl
    obtain ⟨name, hname, hc⟩ := h i k hk (hr.method ▸ hm)
    refine ⟨name, by rw [hr.rest, ← hname], ?_⟩
    rw [hr.parent]
    exact hc.kept hold hmod le_rfl
  · obtain ⟨name, hname, hc⟩ := hnew l (List.mem_of_getElem? hl) hm
    exact ⟨name, hname, hc.kept hold hmod (by rw [hold.length_eq]; omega)⟩

theorem Resolved.kept (h : Resolved ls modules) (hold : List.Forall₂ (Line.Kept p) ls old)
    (hmod : modules <+: modules') : Resolved old modules' := by
  have happ : Resolved (old ++ []) modules' := h.append hold hmod (by simp)
  rwa [List.append_nil] at happ

/-- A handle is bound by a header that the place is in. -/
theorem Resolves.handle_header {n : String} {r : Option Binding} (hres : Resolves ls n q r) (hr : r = some .handle) :
    ∃ a h names, q = some a ∧ Within ls a h.address ∧ h ∈ ls ∧ h.method ∈ [.execute, .call, .when] ∧
      h.output = some names ∧ n ∈ names := by
  induction hres with
  | top =>
    rw [level?] at hr
    split at hr <;> simp at hr
  | @here h b hh hb =>
    obtain rfl := Option.some.inj hr
    rw [level?] at hb
    split at hb
    · simp at hb
    · obtain ⟨hn, hinvokes⟩ : n ∈ h.boundNames ∧ h.method.invokesService = true := by
        simpa [Line.binding?] using hb
      have hm : h.method ∈ [.execute, .call, .when] := by
        cases hmethod : h.method <;> simp [hmethod, Method.invokesService] at hinvokes ⊢
      have hne : h.method ≠ .function := by
        intro hf
        simp [hf] at hm
      rw [Line.boundNames, if_neg hne] at hn
      cases ho : h.output with
      | none => simp [ho] at hn
      | some names => exact ⟨h.address, h, names, rfl, .refl _, hh, hm, ho, by simpa [ho] using hn⟩
  | @outward h r hh hb _ ih =>
    obtain ⟨a, k, names, hp, hw, hrest⟩ := ih hr
    exact ⟨h.address, k, names, rfl, .up hh hp hw, hrest⟩

end Callees

/-! ### Whole derivations -/

section Derivations

variable {p : Option Address} {s t : Store} {h : Address} {names : List String}

theorem Store.Registers.function_line (hs : s.Registers) {name : String} (hf : (s.function? name).isSome = true) :
    ∃ j k, j < s.lines.length ∧ s.lines[j]? = some k ∧ k.method = .function ∧ k.function = some name := by
  obtain ⟨a, hmem⟩ : ∃ a, (name, a) ∈ s.functions := by
    simpa [Store.function?] using hf
  rw [hs] at hmem
  obtain ⟨k, hk, hd⟩ := List.mem_filterMap.mp hmem
  obtain ⟨j, hj⟩ := List.mem_iff_getElem?.mp hk
  rw [Line.declaration?] at hd
  split at hd
  · obtain ⟨n, hn, heq⟩ := Option.map_eq_some_iff.mp hd
    cases heq
    exact ⟨j, k, (List.getElem?_eq_some_iff.mp hj).1, hj, by assumption, hn⟩
  · cases hd

theorem Emits.callee {d : Draft} (he : Emits s p .call d) (hs : s.Ready p) (hr : s.Registers) :
    ∃ name, d.service = some name ∧ Callee s.lines s.modules s.lines.length p name := by
  generalize hm : Method.call = m at he
  cases he with
  | @call name args hshort hknown =>
    refine ⟨name, rfl, ?_⟩
    rw [Text.dotted_length] at hshort
    rw [Bool.or_eq_true, Text.dotted_head?, Option.any_some] at hknown
    rcases hknown with hf | himp
    · obtain ⟨j, k, hj, hk, hkm, hkf⟩ := hr.function_line hf
      exact .declared hj hk hkm hkf
    · obtain ⟨⟨root, path⟩, hmem, hroot⟩ := List.any_eq_true.mp himp
      obtain rfl : root = Text.root name := beq_iff_eq.mp hroot
      exact .imported hmem (by omega)
  | @invoke m r hdot hmethod =>
    refine ⟨r.name, rfl, ?_⟩
    have hhandle : s.isHandle r.name = true := by
      rcases hmethod with rfl | rfl
      · cases hm
      · by_contra hh
        rw [if_neg hh] at hm
        cases hm
    have hres := (hs.frames.resolves_iff hs.linked.keyed).mp (beq_iff_eq.mp hhandle)
    obtain ⟨a, k, names, hp, hw, hk, hkm, hko, hn⟩ := hres.handle_header rfl
    exact .handle (by simpa [Text.has] using hdot) hp hw hk hkm hko hn
  | value hmethod | test hmethod | bare hmethod => rcases hmethod with rfl | rfl | rfl <;> cases hm
  | leave hmethod => rcases hmethod with rfl | rfl <;> cases hm
  | listen | raise | iterate | rescue => cases hm

/-- A line that is emitted calls what was there before, if it calls anything. -/
theorem Resolved.emit {m : Method} {ln : UInt32} {d : Draft} {k : Line} (hres : Resolved s.lines s.modules)
    (he : Emits s p m d) (hs : s.Ready p) (hr : s.Registers) (hl : t.lines = s.linkedTo p (s.fresh ln) ++ [k])
    (hmod : s.modules <+: t.modules) (hk : k.method = m ∧ k.service = d.service ∧ k.parent = p) :
    Resolved t.lines t.modules := by
  obtain ⟨rfl, hservice, hparent⟩ := hk
  rw [hl]
  refine hres.append (s.kept_linkedTo p _) hmod fun x hx hcall => ?_
  rw [List.mem_singleton.mp hx] at hcall ⊢
  rw [hcall] at he
  rw [hservice, hparent]
  exact he.callee hs hr

theorem Opens.resolved (ho : Opens p s h names t) (hs : s.Ready p) (hr : s.Registers)
    (hres : Resolved s.lines s.modules) : Resolved t.lines t.modules := by
  have hmod := ho.extends.modules
  cases ho with
  | @plain m ln d he _ =>
    exact hres.emit he hs hr (he.parent ▸ s.emit_lines m ln d) hmod ⟨rfl, rfl, he.parent⟩
  | @linked m ln d a he _ ha =>
    have hemit := hres.emit he hs hr (he.parent ▸ s.emit_lines m ln d) (Store.Extends.emit s m ln d).modules
      ⟨rfl, rfl, he.parent⟩
    obtain ⟨old, hold, hkept⟩ := Store.linkExit_kept (hs.linked.emit m ln d).keyed (s.emit_lines m ln d) ha
    have hsame : List.Forall₂ (Line.Kept p) (s.emit m ln d).lines ((s.emit m ln d).linkExit a).lines := by
      rw [s.emit_lines, hold]
      exact List.rel_append hkept (List.forall₂_same.mpr fun l _ => .refl l)
    exact hemit.kept hsame (Store.Extends.linkExit _ a).modules
  | @declared ln name parameters returns _ =>
    rw [Store.declareFunction_lines, s.emit_lines] at *
    refine hres.append (s.kept_linkedTo p _) hmod fun x hx hcall => ?_
    rw [List.mem_singleton.mp hx] at hcall
    cases hcall

theorem Lowers.resolved (hl : Lowers p s .done t) (hs : s.Ready p) (hr : s.Registers)
    (hres : Resolved s.lines s.modules) : Resolved t.lines t.modules := by
  have hmod := (hl.extends hs.linked).modules
  generalize ho : Outcome.done = o at hl
  induction hl with
  | skip => exact hres
  | stop | redeclared | inside => cases ho
  | andThen h h' ih ih' =>
    cases ho
    have hmid := ih hs hr hres (h.extends hs.linked).modules rfl
    have hready := h.ready hs
    exact ih' hready (h.registers hs hr) hmid (h'.extends hready.linked).modules rfl
  | @imports p => exact hres.kept (p := p) (List.forall₂_same.mpr fun l _ => .refl l) hmod
  | @continues p s m more hm => exact hres.kept (p := p) (Store.kept_addArgsToLast hs.linked.keyed hm) hmod
  | @line p s m ln d he => exact hres.emit he hs hr (he.parent ▸ s.emit_lines m ln d) hmod ⟨rfl, rfl, he.parent⟩
  | @named p s m ln d path he _ =>
    exact hres.emit he hs hr (he.parent ▸ s.nameLast_emit_lines m ln d path) hmod ⟨rfl, rfl, he.parent⟩
  | header hopens => exact hopens.resolved hs hr hres
  | block hopens hout hbody ih =>
    have hready := hopens.ready_body hs hout
    exact ih hready (hopens.registers hs.linked hr) (hopens.resolved hs hr hres)
      (hbody.extends hready.linked).modules rfl
  | @loop p s t u h c l ln hlast hc hp _ _ hopens hbody ih =>
    have hready := hopens.ready_body hs fun _ => rfl
    have hu := ih hready (hopens.registers hs.linked hr) (hopens.resolved hs hr hres)
      (hbody.extends hready.linked).modules rfl
    change Resolved (u.copyLine c ln (some h)).2.lines (u.copyLine c ln (some h)).2.modules
    rcases u.copyLine_cases c ln (some h) with ⟨-, heq⟩ | ⟨line, hline, heq⟩ <;> rw [heq]
    · exact hu
    · refine hu.append (u.kept_linkedTo (some h) _) (List.prefix_refl _) fun x hx hcall => ?_
      rw [List.mem_singleton.mp hx] at hcall ⊢
      -- The condition stands next to the header, so what it calls can be called from the body.
      have hparent : line.parent = p := (hopens.condition_kept hs hbody hlast (hc ▸ hline)).parent.trans hp
      obtain ⟨i, hi⟩ := List.mem_iff_getElem?.mp (u.line?_eq_some hline).1
      obtain ⟨name, hname, hcallee⟩ := hu i line hi hcall
      obtain ⟨k, hk, rfl⟩ := (hbody.ready hready).has h rfl
      have hkp := hopens.parent_after hs.linked (hbody.grows hready.linked hready.grounded hready.has)
        (hbody.linked hready.linked).keyed k hk rfl
      rw [hparent, ← hkp] at hcallee
      exact ⟨name, hname, hcallee.inside hk (List.getElem?_eq_some_iff.mp hi).1.le⟩

end Derivations

/-- Every call of a program calls a function that is declared before it, a function of an imported module or
    a handle that a header around it binds. -/
theorem compile_resolved {tree : Tree} {m : Manifest} (h : compile tree = .ok m) : Resolved m.lines m.modules := by
  obtain ⟨s, hs, rfl⟩ := compile_done h
  exact hs.resolved Store.ready_empty rfl fun i l hl => by simp at hl

/-- Calls of all three kinds: of a function, of a function of a module, and of a handle, which is called as the
    condition of a loop and in its body. -/
def Sample.calls : Tree :=
  Shape.script [
    Shape.importStatement "lib" "m" 1,
    Shape.functionBlock "f" [] [] [Shape.returnStatement none 3] 2,
    Shape.call "f" [] 4,
    Shape.call "m.g" [] 5,
    Shape.serviceBlock (Shape.service "db" none [] ["client"] 6) (some (Shape.body [
      Shape.whileBlock (Shape.service "client" none [] [] 7) [Shape.service "client" (some "read") [] [] 8] 7]))]

theorem compile_resolved_calls :
    ∃ m, compile Sample.calls = .ok m ∧
      (m.lines.filter (·.method = .call)).map (·.service) =
        [some "f", some "m.g", some "client", some "client", some "client"] ∧
      Resolved m.lines m.modules := by
  obtain ⟨m, hm⟩ := ok_of_isOk (x := compile Sample.calls) (by decide +kernel)
  have hcalls : (compile Sample.calls).map (fun m => (m.lines.filter (·.method = .call)).map (·.service)) =
      .ok [some "f", some "m.g", some "client", some "client", some "client"] := by decide +kernel
  rw [hm] at hcalls
  exact ⟨m, hm, Except.ok.inj hcalls, compile_resolved hm⟩

end Flowline
