import Flowline.Proofs.Checked

/-! Lexical scoping. While statements are lowered under a parent, the open frames agree with the lines:
    there is one frame for the parent, one for the parent of that, and so on to the top level, and each
    binds the names assigned by lines at its level and those that its header binds. So a name means what a
    walk outward along parents finds. -/

namespace Flowline

/-! ### Names read off the lines -/

/-- Whether the line assigns to the name, or to a part of what it stands for. -/
def Line.assigns (l : Line) (n : String) : Bool :=
  match l.name with
  | some (.name root :: _) => root == n
  | _ => false

/-- Whether a line with this parent assigns to the name. -/
def assignedUnder (ls : List Line) (owner : Option Address) (n : String) : Bool :=
  ls.any fun l => l.parent == owner && l.assigns n

/-- What a header binds a name to in its body: service calls and listeners bind handles, all others values. -/
def Line.binding? (h : Line) (n : String) : Option Binding :=
  if n ∈ h.boundNames then some (if h.method.invokesService then .handle else .value) else none

/-- What one level says of a name, in the body of a header or at the top: an assignment there comes first. -/
def level? (ls : List Line) (header : Option Line) (n : String) : Option Binding :=
  if assignedUnder ls (header.map (·.address)) n then some .value else header.bind (·.binding? n)

/-- What a name stands for among the lines under a parent: the answer of the first level outward that has one. -/
inductive Resolves (ls : List Line) (n : String) : Option Address → Option Binding → Prop
  | top : Resolves ls n none (level? ls none n)
  | here {h : Line} {b : Binding} (hh : h ∈ ls) (hb : level? ls (some h) n = some b) :
      Resolves ls n (some h.address) (some b)
  | outward {h : Line} {r : Option Binding} (hh : h ∈ ls) (hb : level? ls (some h) n = none)
      (hr : Resolves ls n h.parent r) : Resolves ls n (some h.address) r

theorem Resolves.header_iff {ls : List Line} {n : String} {h : Line} {r : Option Binding} (hk : Keyed ls)
    (hh : h ∈ ls) : Resolves ls n (some h.address) r ↔
      (∃ b, level? ls (some h) n = some b ∧ r = some b) ∨ level? ls (some h) n = none ∧ Resolves ls n h.parent r := by
  constructor
  · intro hres
    generalize hq : some h.address = q at hres
    cases hres with
    | top => cases hq
    | @here _ b hh' hb =>
      obtain rfl := eq_of_address hk hh' hh (Option.some.inj hq).symm
      exact Or.inl ⟨b, hb, rfl⟩
    | outward hh' hb hr =>
      obtain rfl := eq_of_address hk hh' hh (Option.some.inj hq).symm
      exact Or.inr ⟨hb, hr⟩
  · rintro (⟨b, hb, rfl⟩ | ⟨hb, hr⟩)
    · exact .here hh hb
    · exact .outward hh hb hr

section Assigned

variable {p : Option Address} {ls ls' : List Line}

theorem Line.Kept.boundNames {l l' : Line} (h : l.Kept p l') : l'.boundNames = l.boundNames := by
  rw [Line.boundNames, Line.boundNames, h.method, h.output]
  by_cases hm : l.method = .function
  · rw [h.args (by rw [hm]; decide) (by rw [hm]; decide)]
  · rw [if_neg hm, if_neg hm]

theorem Line.Kept.binding? {l l' : Line} (h : l.Kept p l') (n : String) : l'.binding? n = l.binding? n := by
  rw [Line.binding?, Line.binding?, h.boundNames, h.method]

theorem assignedUnder_append (owner : Option Address) (n : String) :
    assignedUnder (ls ++ ls') owner n = (assignedUnder ls owner n || assignedUnder ls' owner n) :=
  List.any_append

theorem assignedUnder_kept (h : List.Forall₂ (Line.Kept p) ls ls') (owner : Option Address) (n : String) :
    assignedUnder ls' owner n = assignedUnder ls owner n := by
  induction h with
  | nil => rfl
  | @cons l l' _ _ hr _ ih =>
    have hl : l'.assigns n = l.assigns n := by rw [Line.assigns, Line.assigns, hr.name]
    simp only [assignedUnder, List.any_cons] at ih ⊢
    rw [ih, hr.parent, hl]

theorem assignedUnder_singleton (l : Line) (owner : Option Address) (n : String) :
    assignedUnder [l] owner n = (l.parent == owner && l.assigns n) := by
  rw [assignedUnder, List.any_cons, List.any_nil, Bool.or_false]

theorem assignedUnder_of_childless (h : ∀ l ∈ ls, l.parent ≠ p) (n : String) : assignedUnder ls p n = false := by
  rw [assignedUnder, List.any_eq_false]
  intro l hl
  simp [h l hl]

end Assigned

/-! ### Frames that agree with the lines -/

/-- The frame is that of the header, or of the top level, and binds what the lines say. -/
structure Frame.Shows (f : Frame) (ls : List Line) (header : Option Line) : Prop where
  owner : f.owner = header.map (·.address)
  lookup : ∀ n, f.lookup? n = level? ls header n

/-- The frames are those of a parent and of the headers it is in, from the inside out. -/
inductive Scoped (ls : List Line) : Option Address → List Frame → Prop
  | top {f : Frame} (hf : f.Shows ls none) : Scoped ls none [f]
  | body {h : Line} {f : Frame} {frames : List Frame} (hh : h ∈ ls) (hf : f.Shows ls (some h))
      (hne : ∀ g ∈ frames, g.owner ≠ some h.address) (hs : Scoped ls h.parent frames) :
      Scoped ls (some h.address) (f :: frames)

namespace Scoped

variable {p q : Option Address} {ls ls' : List Line} {frames : List Frame}

/-- Looking a name up in the frames is walking outward along the parents. -/
theorem resolves_iff (h : Scoped ls q frames) (hk : Keyed ls) {n : String} {r : Option Binding} :
    frames.findSome? (·.lookup? n) = r ↔ Resolves ls n q r := by
  induction h generalizing r with
  | @top f hf =>
    rw [List.findSome?_singleton, hf.lookup]
    constructor
    · rintro rfl
      exact .top
    · intro h
      cases h with
      | top => rfl
  | @body h f frames hh hf _ _ ih =>
    rw [List.findSome?_cons, hf.lookup, Resolves.header_iff hk hh]
    cases hlevel : level? ls (some h) n with
    | some b => simp [eq_comm]
    | none => simp [ih]

/-- Frames go on to agree with lines that keep the ones there were and assign nothing new at their levels. -/
theorem kept (h : Scoped ls q frames) (hkept : ∀ l ∈ ls, ∃ l' ∈ ls', l.Kept p l')
    (hassigned : ∀ g ∈ frames, ∀ n, assignedUnder ls' g.owner n = assignedUnder ls g.owner n) :
    Scoped ls' q frames := by
  induction h with
  | @top f hf =>
    refine .top ⟨hf.owner, fun n => ?_⟩
    have := hassigned f List.mem_cons_self n
    rw [hf.owner] at this
    rw [hf.lookup, level?, level?, this]
  | @body h f frames hh hf hne _ ih =>
    obtain ⟨h', hh', hr⟩ := hkept h hh
    rw [← hr.address]
    refine .body hh' ⟨by rw [hf.owner, Option.map_some, Option.map_some, hr.address], fun n => ?_⟩ ?_ ?_
    · have := hassigned f List.mem_cons_self n
      rw [hf.owner, Option.map_some] at this
      simp only [hf.lookup, level?, Option.map_some, Option.bind_some, hr.address, hr.binding?, this]
    · rw [hr.address]
      exact hne
    · rw [hr.parent]
      exact ih fun g hg => hassigned g (List.mem_cons_of_mem _ hg)

theorem owner_mem (h : Scoped ls q frames) : ∀ g ∈ frames, ∀ a, g.owner = some a → ∃ l ∈ ls, l.address = a := by
  induction h with
  | top hf =>
    intro g hg a ha
    rw [List.mem_singleton.mp hg, hf.owner] at ha
    cases ha
  | @body h f frames hh hf _ _ ih =>
    intro g hg a ha
    rcases List.mem_cons.mp hg with rfl | hg
    · rw [hf.owner] at ha
      exact ⟨h, hh, Option.some.inj ha⟩
    · exact ih g hg a ha

/-- A line under the parent that assigns to a name binds it in the innermost frame. -/
theorem define {f : Frame} {root : String} (h : Scoped ls q (f :: frames)) (hkept : ∀ l ∈ ls, ∃ l' ∈ ls', l.Kept p l')
    (hassigned : ∀ o n, assignedUnder ls' o n = (assignedUnder ls o n || (q == o && root == n))) :
    Scoped ls' q ({ f with bindings := (root, .value) :: f.bindings } :: frames) := by
  have hlookup : ∀ {header header' : Option Line}, f.Shows ls header → header.map (·.address) = q →
      header'.map (·.address) = q → (∀ n, header'.bind (·.binding? n) = header.bind (·.binding? n)) →
      ({ f with bindings := (root, .value) :: f.bindings } : Frame).Shows ls' header' := by
    intro header header' hf hq hq' hb
    refine ⟨by rw [hq', ← hq]; exact hf.owner, fun n => ?_⟩
    have hshow := hf.lookup n
    rw [level?, hq] at hshow
    rw [level?, hq', hassigned, hb]
    by_cases hn : root = n
    · simp [Frame.lookup?, hn]
    · have hn' : (n == root) = false := beq_false_of_ne (Ne.symm hn)
      simp only [Frame.lookup?, List.lookup_cons, hn'] at hshow ⊢
      rw [hshow]
      simp [hn]
  cases h with
  | top hf => exact .top (hlookup hf rfl rfl fun _ => rfl)
  | @body h _ _ hh hf hne hs =>
    obtain ⟨h', hh', hr⟩ := hkept h hh
    rw [← hr.address] at hne ⊢
    refine .body hh' (hlookup hf rfl (by rw [Option.map_some, hr.address]) fun n => ?_) hne ?_
    · rw [Option.bind_some, Option.bind_some, hr.binding?]
    · rw [hr.parent]
      refine hs.kept hkept fun g hg n => ?_
      rw [hassigned, beq_false_of_ne (Ne.symm (hr.address ▸ hne g hg)), Bool.false_and, Bool.or_false]

theorem exists_cons (h : Scoped ls q frames) : ∃ f rest, frames = f :: rest := by
  cases h with
  | top => exact ⟨_, _, rfl⟩
  | body => exact ⟨_, _, rfl⟩

/-- Closing the body of a header leaves the frames of its parent. -/
theorem pop {a : Address} {sc : Scopes} (h : Scoped ls (some a) sc.frames) :
    ∃ l ∈ ls, l.address = a ∧ Scoped ls l.parent (sc.pop a).frames ∧ ∀ g ∈ (sc.pop a).frames, g.owner ≠ some a := by
  generalize hq : some a = q at h
  generalize hf : sc.frames = frames at h
  cases h with
  | top => cases hq
  | @body l f rest hh hshow hne hs =>
    obtain ⟨hinner, houter⟩ := List.cons.inj hf
    have hpop : (sc.pop a).frames = rest := by
      obtain ⟨g, rest', rfl⟩ := hs.exists_cons
      unfold Scopes.pop
      rw [houter, hinner, hshow.owner, Option.map_some, hq]
      simp [Scopes.frames]
    rw [hpop, Option.some.inj hq]
    exact ⟨l, hh, rfl, hs, hne⟩

/-- Lines without a name bind nothing. -/
theorem unnamed {s t : Store} {old new : List Line} (h : Scoped s.lines q s.scopes.frames) (hsc : t.scopes = s.scopes)
    (ht : t.lines = old ++ new) (hold : List.Forall₂ (Line.Kept p) s.lines old) (hnew : ∀ l ∈ new, l.name = none) :
    Scoped t.lines q t.scopes.frames := by
  rw [hsc, ht]
  refine h.kept (p := p) (fun l hl => ?_) fun g _ n => ?_
  · obtain ⟨l', hl', hr⟩ := forall₂_mem_left hold l hl
    exact ⟨l', List.mem_append_left _ hl', hr⟩
  · have hnone : assignedUnder new g.owner n = false := by
      rw [assignedUnder, List.any_eq_false]
      intro l hl
      simp [Line.assigns, hnew l hl]
    rw [assignedUnder_append, hnone, Bool.or_false, assignedUnder_kept hold]

/-- A line under the parent that is named binds the root of its name. -/
theorem named {s t : Store} {old : List Line} {k : Line} {path : List Segment} {base : Store}
    (h : Scoped s.lines p s.scopes.frames) (hsc : base.scopes = s.scopes) (ht : t = base.nameLast path)
    (hl : t.lines = old ++ [k]) (hold : List.Forall₂ (Line.Kept p) s.lines old) (hk : k.parent = p)
    (hn : k.name = some path) : Scoped t.lines p t.scopes.frames := by
  have hkept : ∀ l ∈ s.lines, ∃ l' ∈ old ++ [k], l.Kept p l' := fun l hl => by
    obtain ⟨l', hl', hr⟩ := forall₂_mem_left hold l hl
    exact ⟨l', List.mem_append_left _ hl', hr⟩
  have hassigned : ∀ o n, assignedUnder (old ++ [k]) o n = (assignedUnder s.lines o n || (p == o && k.assigns n)) :=
    fun o n => by rw [assignedUnder_append, assignedUnder_kept hold, assignedUnder_singleton, hk]
  rw [hl]
  match path with
  | .name root :: rest =>
    have hframes : t.scopes.frames =
        { s.scopes.innermost with bindings := (root, .value) :: s.scopes.innermost.bindings } :: s.scopes.outer := by
      rw [ht, ← hsc]
      rfl
    rw [hframes]
    refine define h hkept fun o n => ?_
    rw [hassigned, Line.assigns, hn]
  | [] | .computed _ :: _ =>
    have hsame : t.scopes = s.scopes := by
      rw [ht, ← hsc]
      rfl
    rw [hsame]
    refine h.kept hkept fun g _ n => ?_
    rw [hassigned, Line.assigns, hn, Bool.and_false, Bool.or_false]

theorem emit {s : Store} {d : Draft} (h : Scoped s.lines p s.scopes.frames) (hd : d.parent = p) (m : Method)
    (ln : UInt32) : Scoped (s.emit m ln d).lines p (s.emit m ln d).scopes.frames := by
  refine h.unnamed (s.emit_scopes m ln d) (s.emit_lines m ln d) (hd ▸ s.kept_linkedTo p _) fun l hl => ?_
  rw [List.mem_singleton.mp hl]
  rfl

/-- A line that is copied to where no frame is open changes no binding. -/
theorem copyLine {s : Store} (h : Scoped s.lines q frames) (hne : ∀ g ∈ frames, g.owner ≠ p) (c : Address)
    (ln : UInt32) : Scoped (s.copyLine c ln p).2.lines q frames := by
  rcases s.copyLine_cases c ln p with ⟨-, heq⟩ | ⟨line, -, heq⟩ <;> rw [heq]
  · exact h
  · have hold := s.kept_linkedTo p (s.fresh ln)
    refine h.kept (p := p) (fun x hx => ?_) fun g hg n => ?_
    · obtain ⟨x', hx', hr⟩ := forall₂_mem_left hold x hx
      exact ⟨x', List.mem_append_left _ hx', hr⟩
    · have hfalse : (p == g.owner) = false := beq_false_of_ne (Ne.symm (hne g hg))
      change assignedUnder (s.linkedTo p (s.fresh ln) ++ [_]) g.owner n = _
      rw [assignedUnder_append, assignedUnder_kept hold, assignedUnder_singleton]
      simp [Store.newLine, Draft.line, Line.draftUnder, hfalse]

end Scoped

/-! ### Bodies -/

theorem lookup_map_const (b : Binding) (n : String) (names : List String) :
    (names.map fun x => (x, b)).lookup n = if n ∈ names then some b else none := by
  induction names with
  | nil => rfl
  | cons x names ih =>
    rw [List.map_cons, List.lookup_cons, ih]
    by_cases hx : n = x
    · simp [hx]
    · rw [beq_false_of_ne hx]
      simp [hx]

theorem Scopes.defineAll_frames (b : Binding) (names : List String) (sc : Scopes) :
    (sc.defineAll names b).frames =
      { sc.innermost with bindings := (names.reverse.map fun x => (x, b)) ++ sc.innermost.bindings } :: sc.outer := by
  induction names generalizing sc with
  | nil => rfl
  | cons x names ih =>
    rw [Scopes.defineAll, List.foldl_cons, ← Scopes.defineAll, ih]
    simp [Scopes.define]

namespace Opens

variable {p : Option Address} {s t u : Store} {h : Address} {names : List String}

theorem scopes_eq (ho : Opens p s h names t) : t.scopes = s.scopes := by
  cases ho with
  | plain => rw [Store.emit_scopes]
  | linked => rw [Store.linkExit_scopes, Store.emit_scopes]
  | declared => rw [Store.declareFunction_scopes, Store.emit_scopes]

/-- The body of a header starts with a frame of its own, which binds what the header binds. -/
theorem scoped_body (ho : Opens p s h names t) (hs : s.Linked) (hg : s.Grounded) (hp : s.Has p)
    (hsc : Scoped s.lines p s.scopes.frames) : Scoped t.lines (some h) (t.openScope h names).scopes.frames := by
  have hchildless := ho.childless hs hg hp
  have hsc' := ho.scopes_eq
  have hkeyed := (ho.keeps_linked hs).keyed
  obtain ⟨old, m, ln, d, ht, hold, rfl, hd, -, hnames⟩ := ho.concat hs
  have houter : Scoped t.lines p t.scopes.frames :=
    hsc.unnamed hsc' ht hold fun l hl => by rw [List.mem_singleton.mp hl]; rfl
  have hmem : s.newLine m ln d ∈ t.lines := by simp [ht]
  have hline : t.line? (s.fresh ln) = some (s.newLine m ln d) := (find?_address_iff hkeyed.nodup).mpr ⟨hmem, rfl⟩
  have hframes : (t.openScope (s.fresh ln) names).scopes.frames =
      ⟨some (s.fresh ln), (names.reverse.map fun x => (x, t.outputBinding (s.fresh ln)))⟩ :: t.scopes.frames := by
    rw [Store.openScope, Scopes.defineAll_frames]
    simp [Scopes.push]
  rw [hframes]
  refine .body hmem ⟨rfl, fun n => ?_⟩ (fun g hg' hga => ?_) ?_
  · rw [Frame.lookup?, lookup_map_const, level?, Option.map_some, Store.newLine_address,
      assignedUnder_of_childless hchildless, Option.bind_some, Line.binding?, ← hnames]
    simp only [List.mem_reverse, Store.outputBinding, hline, Option.any_some, Bool.false_eq_true, if_false]
  · rw [hsc'] at hg'
    obtain ⟨l, hl, hla⟩ := hsc.owner_mem g hg' _ hga
    exact Store.fresh_ne hs ln l hl hla
  · rw [Store.newLine_parent, hd]
    exact houter

theorem parent_after (ho : Opens p s h names t) (hs : s.Linked) (hgrows : Store.Grows (some h) t u)
    (hk : Keyed u.lines) : ∀ l ∈ u.lines, l.address = h → l.parent = p := by
  obtain ⟨old, m, ln, d, ht, -, rfl, hd, -, -⟩ := ho.concat hs
  obtain ⟨old', new, hu, hold', -⟩ := hgrows
  obtain ⟨k, hmem, hr⟩ := forall₂_mem_left hold' (s.newLine m ln d) (by simp [ht])
  intro l hl hla
  have hku : k ∈ u.lines := by
    rw [hu]
    exact List.mem_append_left _ hmem
  rw [eq_of_address hk hl hku (hla.trans hr.address.symm), hr.parent]
  exact hd

/-- When the body of a header is closed, the frames are those of the parent of the header again. -/
theorem scoped_after (ho : Opens p s h names t) (hs : s.Linked) (hg : s.Grounded) (hp : s.Has p)
    (hbody : Lowers (some h) (t.openScope h names) .done u) (hsc : Scoped u.lines (some h) u.scopes.frames) :
    Scoped u.lines p (u.scopes.pop h).frames ∧ ∀ g ∈ (u.scopes.pop h).frames, g.owner ≠ some h := by
  have ht := (ho.keeps_linked hs).of_lines (t := t.openScope h names) rfl
  have hgrows := hbody.grows ht ((ho.grows hs).grounded hg hp) (ho.has hs)
  obtain ⟨l, hl, hla, hsc', hne⟩ := hsc.pop
  rw [ho.parent_after hs hgrows (hbody.linked ht).keyed l hl hla] at hsc'
  exact ⟨hsc', hne⟩

end Opens

/-! ### Whole derivations -/

/-- The parent under which lowering ends. -/
def Outcome.under (p : Option Address) : Outcome → Option Address
  | .done => p
  | .broken q => q

theorem Lowers.keeps_scoped {p : Option Address} {s t : Store} {o : Outcome} (h : Lowers p s o t) (hs : s.Linked)
    (hg : s.Grounded) (hp : s.Has p) (hsc : Scoped s.lines p s.scopes.frames) :
    Scoped t.lines (o.under p) t.scopes.frames := by
  induction h with
  | skip | stop | imports => exact hsc
  | andThen h _ ih ih' =>
    have hst := h.grows hs hg hp
    exact ih' (h.linked hs) (hst.grounded hg hp) (hst.has hp) (ih hs hg hp hsc)
  | @continues p s m more hm =>
    exact hsc.unnamed (s.addArgsToLast_scopes m more) (List.append_nil _).symm
      (Store.kept_addArgsToLast (p := p) hs.keyed hm) fun l hl => by cases hl
  | line he => exact hsc.emit he.parent _ _
  | @named p s m ln d path he _ =>
    refine hsc.named (s.emit_scopes m ln d) rfl (s.nameLast_emit_lines m ln d path) ?_ he.parent rfl
    rw [he.parent]
    exact s.kept_linkedTo p _
  | redeclared => exact hsc.emit rfl _ _
  | header ho =>
    obtain ⟨old, m, ln, d, ht, hold, -, -, -, -⟩ := ho.concat hs
    exact hsc.unnamed ho.scopes_eq ht hold fun l hl => by rw [List.mem_singleton.mp hl]; rfl
  | block ho hout hbody ih =>
    have ht := ho.keeps_linked hs
    obtain rfl := hout ht.keyed
    have hend := ih (ht.of_lines rfl) ((ho.grows hs).grounded hg hp) (ho.has hs) (ho.scoped_body hs hg hp hsc)
    exact (ho.scoped_after hs hg hp hbody hend).1
  | inside ho hout _ ih =>
    have ht := ho.keeps_linked hs
    obtain rfl := hout ht.keyed
    exact ih (ht.of_lines rfl) ((ho.grows hs).grounded hg hp) (ho.has hs) (ho.scoped_body hs hg hp hsc)
  | @loop p s t u h c l ln _ _ _ _ _ ho hbody ih =>
    have ht := ho.keeps_linked hs
    have hend := ih (ht.of_lines rfl) ((ho.grows hs).grounded hg hp) (ho.has hs) (ho.scoped_body hs hg hp hsc)
    obtain ⟨hsc', hne⟩ := ho.scoped_after hs hg hp hbody hend
    -- The copy of the condition stands in the body that is closed, so no frame that stays sees it.
    have hcopied := hsc'.copyLine hne c ln
    rwa [← u.copyLine_scopes c ln (some h)] at hcopied

/-! ### The moments of a lowering -/

theorem Tree.Begins.lowers {t c : Tree} {q : Option Address} {u : Store} (h : t.Begins c q u) :
    Lowers none {} (.broken q) u := by
  obtain ⟨stop, hrun⟩ := h
  -- Two reports that no lowering makes by itself, one of them for `q` alone, tell where it broke off.
  let mark : Diagnostic := { code := .malformedTree }
  let other : Diagnostic := { code := .malformedTree, context := [("", ""), ("", "")] }
  let report : Tree → Option Address → Diagnostic := fun _ q' => if q' = q then mark else other
  have hsound : Sound (fun d q' _ => d.Listed ∨ ∃ c', d = report c' q') (t.lowerUntil stop report) :=
    lowerUntil_sound (fun _ _ _ hd => Or.inl hd) (fun c' _ _ _ => Or.inr ⟨c', rfl⟩) t
  obtain ⟨q', hq', hlowers⟩ := (hsound none {}).of_error (hrun report)
  have hmark : report c q = mark := if_pos rfl
  rw [hmark] at hq'
  rcases hq' with hl | ⟨c', heq⟩
  · cases hl
  · by_cases hqq : q' = q
    · exact hqq ▸ hlowers
    · have hother : report c' q' = other := if_neg hqq
      rw [hother] at heq
      exact absurd (congrArg (·.context.length) heq) (by decide)

/-- Whenever the lowering of a statement begins, a name stands for what the lines so far say: the walk outward
    from the parent of the statement answers what the open frames do. -/
theorem lookup?_eq_iff_resolves {t c : Tree} {q : Option Address} {u : Store} (h : t.Begins c q u) (n : String)
    (r : Option Binding) : u.scopes.lookup? n = r ↔ Resolves u.lines n q r := by
  have hl := h.lowers
  have hempty : Scoped ({} : Store).lines none ({} : Store).scopes.frames := .top ⟨rfl, fun _ => rfl⟩
  have hsc := hl.keeps_scoped Store.linked_empty Store.grounded_empty (Store.has_none _) hempty
  exact hsc.resolves_iff (hl.linked Store.linked_empty).keyed

/-- In the body of `catch` the error is bound, and what the body of `try` assigned is not. -/
theorem lookup?_eq_iff_resolves_rescue :
    ∃ c u, (⟨"start", [.tree Sample.rescue]⟩ : Tree).Begins c (some ⟨"11"⟩) u ∧
      (u.scopes.lookup? "e" = some .value ∧ Resolves u.lines "e" (some ⟨"11"⟩) (some .value)) ∧
      u.scopes.lookup? "a" = none ∧ Resolves u.lines "a" (some ⟨"11"⟩) none := by
  obtain ⟨c, u, hb, he, ha⟩ : ∃ c u, (⟨"start", [.tree Sample.rescue]⟩ : Tree).Begins c (some ⟨"11"⟩) u ∧
      u.scopes.lookup? "e" = some .value ∧ u.scopes.lookup? "a" = none := by
    apply Exists.intro
    apply Exists.intro
    refine ⟨⟨fun _ q _ => q == some ⟨"11"⟩, fun report => ?_⟩, ?_, ?_⟩ <;> rfl
  exact ⟨c, u, hb, ⟨he, (lookup?_eq_iff_resolves hb "e" _).mp he⟩, ha, (lookup?_eq_iff_resolves hb "a" _).mp ha⟩

end Flowline
