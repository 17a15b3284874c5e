import Flowline.Proofs.Branches
import Flowline.Proofs.Scoping

/-! Scopes are bracketed. A body opens one frame and closes it again, so statements that are lowered to their
    end leave the frames as they found them, but for values bound in the innermost one by lines of their own
    level. Statements that break off may leave frames open on top of those. Nothing of this depends on the
    links of the lines, so it holds in any store and under any parent. -/

namespace Flowline

/-! ### Lines that were there before -/

/-- The relation allows what lowering does to a line from before: to link it to other lines than its parent, and to
    add to its operands. -/
structure Line.Allows (R : Line → Line → Prop) : Prop where
  refl : ∀ l, R l l
  trans : ∀ x y z, R x y → R y z → R x z
  links : ∀ (l : Line) (enter exit next : Option Address), R l { l with enter, exit, next }
  args : ∀ (l : Line) (more : List Value), R l (l.addArgs more)

namespace Store

/-- Lines were added at the end, and those that were there before are changed at most as the relation allows. -/
def Retains (R : Line → Line → Prop) (s t : Store) : Prop :=
  ∃ old new, t.lines = old ++ new ∧ List.Forall₂ R s.lines old

variable {R : Line → Line → Prop} {s t u : Store}

theorem Retains.of_forall₂ (h : List.Forall₂ R s.lines t.lines) : s.Retains R t :=
  ⟨t.lines, [], (List.append_nil _).symm, h⟩

/-- A line stays at its place. -/
theorem Retains.getElem? (h : s.Retains R t) {i : Nat} {l : Line} (hl : s.lines[i]? = some l) :
    ∃ l', t.lines[i]? = some l' ∧ R l l' := by
  obtain ⟨old, new, ht, hold⟩ := h
  obtain ⟨l', hl', hr⟩ := forall₂_getElem?_left hold hl
  exact ⟨l', ht ▸ getElem?_append_some hl', hr⟩

variable (hR : Line.Allows R)

include hR

theorem Retains.of_lines (h : t.lines = s.lines) : s.Retains R t :=
  .of_forall₂ (h ▸ List.forall₂_same.mpr fun l _ => hR.refl l)

theorem Retains.trans (h : s.Retains R t) (h' : t.Retains R u) : s.Retains R u := by
  obtain ⟨old, new, ht, hold⟩ := h
  obtain ⟨old', new', hu, hold'⟩ := h'
  rw [ht] at hold'
  obtain ⟨ys, zs, hys, -, rfl⟩ := forall₂_append_left hold'
  exact ⟨ys, zs ++ new', by rw [hu, List.append_assoc], forall₂_trans hR.trans hold hys⟩

theorem allowed_linkedTo (s : Store) (parent : Option Address) (a : Address) :
    List.Forall₂ R s.lines (s.linkedTo parent a) := by
  refine (s.touched_linkedTo parent a).imp fun l l' h => ?_
  rw [h.rest]
  exact hR.links l l'.enter l.exit l'.next

theorem allowed_addArgsToLast (s : Store) (m : Method) (more : List Value) :
    List.Forall₂ R s.lines (s.addArgsToLast m more).2.lines := by
  have hsame : List.Forall₂ R s.lines s.lines := List.forall₂_same.mpr fun l _ => hR.refl l
  rcases s.addArgsToLast_cases m more with heq | ⟨a, -, heq⟩ <;> rw [heq]
  · exact hsame
  rcases s.addArgs_cases a m more with heq | ⟨_, -, -, heq⟩ <;> rw [heq]
  · exact hsame
  · refine Line.forall₂_map_self (fun l => ?_) _
    split
    · exact hR.args l more
    · exact hR.refl l

theorem Retains.linkedTo {parent : Option Address} {a : Address} {k : Line}
    (hl : t.lines = s.linkedTo parent a ++ [k]) : s.Retains R t :=
  ⟨_, _, hl, s.allowed_linkedTo hR parent a⟩

theorem Retains.linkExit (s : Store) (a : Address) : s.Retains R (s.linkExit a) := by
  refine .of_forall₂ ((s.forall₂_linkExit a).imp fun l l' h => ?_)
  rw [h]
  exact hR.links l l.enter l'.exit l.next

theorem Retains.copyLine (s : Store) (a : Address) (ln : UInt32) (parent : Option Address) :
    s.Retains R (s.copyLine a ln parent).2 := by
  rcases s.copyLine_cases a ln parent with ⟨-, heq⟩ | ⟨line, -, heq⟩ <;> rw [heq]
  · exact .of_lines hR rfl
  · exact .linkedTo (s := s) hR rfl

end Store

section Derivations

variable {R : Line → Line → Prop} (hR : Line.Allows R) {p : Option Address} {s t : Store}

include hR

theorem Opens.retains {h : Address} {names : List String} (ho : Opens p s h names t) : s.Retains R t := by
  cases ho with
  | @plain m ln d => exact .linkedTo hR (s.emit_lines m ln d)
  | @linked m ln d a => exact .trans hR (.linkedTo hR (s.emit_lines m ln d)) (.linkExit hR _ a)
  | @declared ln name parameters returns =>
    exact .trans hR (.linkedTo hR (s.emit_lines .function ln (.declaration name parameters returns p)))
      (.of_lines hR (Store.declareFunction_lines _ _ _))

/-- Whatever the store is, statements change lines from before as is allowed, and add lines after them. -/
theorem Lowers.retains {o : Outcome} (h : Lowers p s o t) : s.Retains R t := by
  induction h with
  | skip | stop | imports => exact .of_lines hR rfl
  | andThen _ _ ih ih' => exact ih.trans hR ih'
  | @continues _ s m more => exact .of_forall₂ (s.allowed_addArgsToLast hR m more)
  | line | redeclared => exact .linkedTo hR (Store.emit_lines _ _ _ _)
  | named => exact .linkedTo hR (Store.nameLast_emit_lines _ _ _ _ _)
  | header ho => exact ho.retains hR
  | block ho _ _ ih | inside ho _ _ ih => exact (ho.retains hR).trans hR ih
  | loop _ _ _ _ _ ho _ ih => exact (ho.retains hR).trans hR (ih.trans hR (.copyLine hR _ _ _ _))

end Derivations

/-- The line is kept but for its operands and its links to other lines than its parent. -/
def Line.Amended (l l' : Line) : Prop :=
  l' = { l with args := l'.args, enter := l'.enter, exit := l'.exit, next := l'.next }

theorem Line.Amended.trans (x y z : Line) (h : x.Amended y) (h' : y.Amended z) : x.Amended z := by
  unfold Line.Amended at *
  rw [h', h]

theorem Line.Amended.address {l l' : Line} (h : l.Amended l') : l'.address = l.address := by rw [h]

theorem Line.Amended.parent {l l' : Line} (h : l.Amended l') : l'.parent = l.parent := by rw [h]

theorem Line.Amended.assigns {l l' : Line} (h : l.Amended l') (n : String) : l'.assigns n = l.assigns n := by
  rw [h]
  rfl

theorem Line.Amended.allows : Line.Allows Line.Amended where
  refl _ := rfl
  trans := Line.Amended.trans
  links _ _ _ _ := rfl
  args _ _ := rfl

namespace Store

/-- Lines were added at the end, and those that were there before are amended at most. -/
def Appends (s t : Store) : Prop :=
  ∃ old new, t.lines = old ++ new ∧ List.Forall₂ Line.Amended s.lines old

variable {s t u : Store} {p : Option Address}

theorem Appends.of_lines (h : t.lines = s.lines) : s.Appends t :=
  Retains.of_lines Line.Amended.allows h

theorem Appends.trans (h : s.Appends t) (h' : t.Appends u) : s.Appends u :=
  Retains.trans Line.Amended.allows h h'

theorem Appends.length_le (h : s.Appends t) : s.lines.length ≤ t.lines.length := by
  obtain ⟨old, new, ht, hold⟩ := h
  rw [ht, List.length_append, hold.length_eq]
  exact Nat.le_add_right _ _

theorem amended_linkedTo (s : Store) (parent : Option Address) (a : Address) :
    List.Forall₂ Line.Amended s.lines (s.linkedTo parent a) :=
  s.allowed_linkedTo Line.Amended.allows parent a

theorem amended_addArgsToLast (s : Store) (m : Method) (more : List Value) :
    List.Forall₂ Line.Amended s.lines (s.addArgsToLast m more).2.lines :=
  s.allowed_addArgsToLast Line.Amended.allows m more

theorem Appends.linkedTo {parent : Option Address} {a : Address} {k : Line}
    (hl : t.lines = s.linkedTo parent a ++ [k]) : s.Appends t :=
  Retains.linkedTo Line.Amended.allows hl

theorem Appends.copyLine (s : Store) (a : Address) (ln : UInt32) (parent : Option Address) :
    s.Appends (s.copyLine a ln parent).2 :=
  Retains.copyLine Line.Amended.allows s a ln parent

/-- Since `s`, a line was added under `p` that assigns to the name. -/
def AssignedSince (p : Option Address) (s t : Store) (n : String) : Prop :=
  ∃ l ∈ t.lines.drop s.lines.length, l.parent = p ∧ l.assigns n = true

/-- A line that was added since `s` is still one when more lines have been added. -/
theorem AssignedSince.appends {n : String} (h : AssignedSince p s t n) (ht : t.Appends u) : AssignedSince p s u n := by
  obtain ⟨l, hl, hp, hn⟩ := h
  obtain ⟨i, hi⟩ := List.mem_iff_getElem?.mp hl
  rw [List.getElem?_drop] at hi
  obtain ⟨l', hl', hr⟩ := Retains.getElem? ht hi
  refine ⟨l', ?_, hr.parent.trans hp, (hr.assigns n).trans hn⟩
  exact List.mem_iff_getElem?.mpr ⟨i, by rw [List.getElem?_drop, hl']⟩

/-- Lines that were added since a later store were added since an earlier one. -/
theorem AssignedSince.of_appends {n : String} (h : AssignedSince p t u n) (ht : s.Appends t) : AssignedSince p s u n := by
  obtain ⟨l, hl, hrest⟩ := h
  refine ⟨l, ?_, hrest⟩
  obtain ⟨k, hk⟩ := Nat.exists_eq_add_of_le ht.length_le
  rw [hk, ← List.drop_drop] at hl
  exact List.mem_of_mem_drop hl

end Store

theorem Opens.appends {p : Option Address} {s t : Store} {h : Address} {names : List String}
    (ho : Opens p s h names t) : s.Appends t :=
  ho.retains Line.Amended.allows

theorem Lowers.appends {p : Option Address} {s t : Store} {o : Outcome} (h : Lowers p s o t) : s.Appends t :=
  h.retains Line.Amended.allows

/-! ### Frames -/

/-- The frame with more names bound to values, the latest first. -/
def Frame.bindValues (f : Frame) (names : List String) : Frame :=
  { f with bindings := names.map (fun n => (n, .value)) ++ f.bindings }

namespace Frame

variable (f : Frame)

theorem bindValues_append (xs ys : List String) : (f.bindValues ys).bindValues xs = f.bindValues (xs ++ ys) := by
  simp [bindValues]

theorem lookup?_bindValues (names : List String) (n : String) :
    (f.bindValues names).lookup? n = if n ∈ names then some .value else f.lookup? n := by
  rw [lookup?, lookup?, bindValues, List.lookup_append, lookup_map_const]
  split <;> rfl

end Frame

/-- Closing the body of a header leaves the frames on which its frame was opened. -/
theorem Scopes.pop_eq {sc base : Scopes} {f : Frame} {h : Address} (hf : sc.frames = f :: base.frames)
    (ho : f.owner = some h) : sc.pop h = base := by
  obtain ⟨rfl, houter⟩ := List.cons.inj hf
  rw [Scopes.pop, houter]
  exact if_pos ho

/-- A body is lowered in a frame of its header, on top of the frames that were open. -/
theorem Store.openScope_frames (s : Store) (h : Address) (output : List String) :
    ∃ f : Frame, (s.openScope h output).scopes.frames = f :: s.scopes.frames ∧ f.owner = some h := by
  rw [Store.openScope, Scopes.defineAll_frames]
  exact ⟨_, rfl, rfl⟩

/-- What statements under `p` do to the frames: the innermost one is given values, by lines that were added
    under `p`, and only if they break off there are more frames on top of it. -/
structure Lowers.Frames (p : Option Address) (s : Store) (o : Outcome) (t : Store) (opened : List Frame)
    (names : List String) : Prop where
  frames : t.scopes.frames = opened ++ s.scopes.innermost.bindValues names :: s.scopes.outer
  opened : o = .done → opened = []
  assigned : ∀ n ∈ names, Store.AssignedSince p s t n

namespace Lowers

variable {p : Option Address} {s t u : Store} {o : Outcome} {h : Address}

theorem Frames.of_scopes (hsc : t.scopes = s.scopes) : Frames p s o t [] [] where
  frames := by
    rw [hsc]
    rfl
  opened _ := rfl
  assigned := nofun

theorem Frames.scopes_eq {opened : List Frame} {names : List String} (hf : Frames p s .done t opened names) :
    t.scopes = ⟨s.scopes.innermost.bindValues names, s.scopes.outer⟩ := by
  have hframes := hf.frames
  rw [hf.opened rfl, List.nil_append] at hframes
  obtain ⟨hinner, houter⟩ := List.cons.inj hframes
  rw [← hinner, ← houter]

/-- The body of a header is lowered on the frames that were open, and closing it leaves just these. -/
theorem Frames.closeScope {output : List String} {opened : List Frame} {names : List String}
    (hf : Frames (some h) (s.openScope h output) .done u opened names) : u.scopes.pop h = s.scopes := by
  obtain ⟨f, hopen, howner⟩ := s.openScope_frames h output
  obtain ⟨rfl, houter⟩ := List.cons.inj hopen
  refine Scopes.pop_eq (f := (s.openScope h output).scopes.innermost.bindValues names) ?_ howner
  rw [hf.scopes_eq, Scopes.frames, houter]

/-- A line that is named binds the root of its name. -/
theorem frames_named {m : Method} {ln : UInt32} {d : Draft} (he : Emits s p m d) (path : List Segment) :
    ∃ names, Frames p s o ((s.emit m ln d).nameLast path) [] names := by
  have hscopes := s.emit_scopes m ln d
  match path with
  | .name root :: rest =>
    refine ⟨[root], ?_, fun _ => rfl, fun n hn => ?_⟩
    · rw [Store.nameLast, hscopes]
      rfl
    · rw [List.mem_singleton.mp hn]
      refine ⟨{ s.newLine m ln d with name := some (.name root :: rest) }, ?_, he.parent, by simp [Line.assigns]⟩
      rw [Store.nameLast_emit_lines, (s.touched_linkedTo d.parent _).length_eq, List.drop_left]
      exact List.mem_singleton_self _
  | [] | .computed _ :: _ => exact ⟨[], .of_scopes hscopes⟩

theorem exists_frames (hl : Lowers p s o t) : ∃ opened names, Frames p s o t opened names := by
  induction hl with
  | skip | stop | imports => exact ⟨[], [], .of_scopes rfl⟩
  | continues => exact ⟨[], [], .of_scopes (Store.addArgsToLast_scopes _ _ _)⟩
  | line | redeclared => exact ⟨[], [], .of_scopes (Store.emit_scopes _ _ _ _)⟩
  | named he _ => exact ⟨[], frames_named he _⟩
  | header ho => exact ⟨[], [], .of_scopes ho.scopes_eq⟩
  | @andThen p s t u o hl hl' ih ih' =>
    obtain ⟨opened, names, hf⟩ := ih
    obtain ⟨opened', names', hf'⟩ := ih'
    refine ⟨opened', names' ++ names, ?_, hf'.opened, fun n hn => ?_⟩
    · rw [hf'.frames, hf.scopes_eq, Frame.bindValues_append]
    · rcases List.mem_append.mp hn with hn | hn
      · exact (hf'.assigned n hn).of_appends hl.appends
      · exact (hf.assigned n hn).appends hl'.appends
  | block ho _ _ ih =>
    obtain ⟨opened, names, hf⟩ := ih
    exact ⟨[], [], .of_scopes (hf.closeScope.trans ho.scopes_eq)⟩
  | @inside p q s t u h _ output ho _ _ ih =>
    obtain ⟨opened, names, hf⟩ := ih
    obtain ⟨f, hopen, -⟩ := t.openScope_frames h output
    have houter : (t.openScope h output).scopes.outer = s.scopes.frames := by
      rw [(List.cons.inj hopen).2, ho.scopes_eq]
    refine ⟨opened ++ [(t.openScope h output).scopes.innermost.bindValues names], [], ?_, nofun, nofun⟩
    rw [hf.frames, houter, List.append_assoc]
    rfl
  | @loop p s t u h c l ln _ _ _ _ _ ho _ ih =>
    obtain ⟨opened, names, hf⟩ := ih
    refine ⟨[], [], .of_scopes ?_⟩
    rw [Store.closeScope, u.copyLine_scopes c ln (some h)]
    exact hf.closeScope.trans ho.scopes_eq

end Lowers

/-! ### Lowered statements -/

namespace Store

/-- The scopes after statements under `p` that were lowered to their end. -/
structure Bracketed (p : Option Address) (s t : Store) : Prop where
  depth : t.scopes.depth = s.scopes.depth
  owners : t.scopes.frames.map (·.owner) = s.scopes.frames.map (·.owner)
  outer : t.scopes.outer = s.scopes.outer
  innermost : ∀ n, t.scopes.innermost.lookup? n = s.scopes.innermost.lookup? n ∨
    t.scopes.innermost.lookup? n = some .value ∧ AssignedSince p s t n
  value : ∀ n, s.scopes.lookup? n = some .value → t.scopes.lookup? n = some .value
  unassigned : ∀ n, ¬AssignedSince p s t n → t.scopes.lookup? n = s.scopes.lookup? n

/-- The scopes after statements that broke off: frames may be open on top of those that were there. -/
def LeftOpen (s t : Store) : Prop :=
  ∃ opened inner, t.scopes.frames = opened ++ inner :: s.scopes.outer ∧ inner.owner = s.scopes.innermost.owner

variable {p : Option Address} {s t : Store} {o : Outcome} {opened : List Frame} {names : List String}

theorem Bracketed.of_frames (hf : Lowers.Frames p s .done t opened names) : Bracketed p s t := by
  have hsc := hf.scopes_eq
  have hinner : ∀ n, t.scopes.innermost.lookup? n =
      if n ∈ names then some .value else s.scopes.innermost.lookup? n := fun n => by
    rw [hsc, Frame.lookup?_bindValues]
  -- A name is looked up in the innermost frame first, and the others are the same.
  have hlookup : ∀ n, t.scopes.lookup? n = if n ∈ names then some .value else s.scopes.lookup? n := fun n => by
    rw [Scopes.lookup?, Scopes.lookup?, Scopes.frames, Scopes.frames, List.findSome?_cons, List.findSome?_cons, hinner]
    rw [hsc]
    by_cases hn : n ∈ names
    · rw [if_pos hn, if_pos hn]
    · rw [if_neg hn, if_neg hn]
  refine ⟨by rw [hsc]; rfl, by rw [hsc]; rfl, by rw [hsc], fun n => ?_, fun n hv => ?_, fun n hn => ?_⟩
  · rw [hinner]
    by_cases hn : n ∈ names
    · rw [if_pos hn]
      exact Or.inr ⟨rfl, hf.assigned n hn⟩
    · rw [if_neg hn]
      exact Or.inl rfl
  · rw [hlookup, hv, ite_self]
  · rw [hlookup, if_neg fun hmem => hn (hf.assigned n hmem)]

theorem LeftOpen.of_frames (hf : Lowers.Frames p s o t opened names) : LeftOpen s t :=
  ⟨opened, s.scopes.innermost.bindValues names, hf.frames, rfl⟩

end Store

/-- The body of a statement leaves the scopes exactly as they were. -/
theorem lowerBody_scopes (t : Tree) (h : Address) (output : Option (List String)) (s : Store) :
    (Part.lowerBody (t.subtrees.map fun c => ⟨c, c.lower⟩) h output).Ends s (fun _ u => u.scopes = s.scopes)
      fun _ _ => True := by
  unfold Part.lowerBody
  split
  · rfl
  · rename_i body hfind
    refine LowerM.Ends.bind (LowerM.ends_modify ?_)
    have hbody := t.parts_sound body (List.mem_of_find?_eq_some hfind) (some h) (s.openScope h (output.getD []))
    refine LowerM.Ends.bind (hbody.mono (fun _ u hu => LowerM.ends_modify ?_) fun _ _ _ => trivial)
    obtain ⟨opened, names, hf⟩ := hu.exists_frames
    exact hf.closeScope

/-- Whatever the store and the parent are, a tree that is lowered to its end leaves the frames as they were but
    for values that lines of its level assign, and what its body binds is gone with the body. A tree that breaks
    off leaves them below the frames that it opened. -/
theorem lower_bracketed (s : Store) (t : Tree) (p : Option Address) :
    (∀ u, t.lower p s = .ok () u → Store.Bracketed p s u) ∧
      (∀ d u, t.lower p s = .error d u → Store.LeftOpen s u) ∧
        ∀ h output u, Part.lowerBody (t.subtrees.map fun c => ⟨c, c.lower⟩) h output s = .ok () u →
          u.scopes = s.scopes := by
  refine ⟨fun u hu => ?_, fun d u hu => ?_, fun h output u hu => (lowerBody_scopes t h output s).of_ok hu⟩
  · obtain ⟨opened, names, hf⟩ := (Tree.lower_done hu).exists_frames
    exact .of_frames hf
  · obtain ⟨q, -, hl⟩ := (t.lower_sound p s).of_error hu
    obtain ⟨opened, names, hf⟩ := hl.exists_frames
    exact .of_frames hf

/-- `foreach list as item`, with a body. -/
def Sample.foreach (statements : List Child) : Child :=
  node "foreach_block" [
    node "foreach_statement" [word "FOREACH" "foreach" 3, node "entity" [name "list" 3], node "output" [word "NAME" "item" 3]],
    body statements]

/-- A handle is assigned to in the frame that binds it, beside a loop that assigns to a variable of its own.
    The same loop with a statement of no kind leaves its frame open. -/
theorem lower_bracketed_foreach :
    ∃ s u v d, s.Reachable ∧ s.scopes.depth = 2 ∧ s.scopes.lookup? "x" = some .handle ∧
      (⟨"nested_block", [Sample.assignment "x" "list" 2, Sample.foreach [Sample.assignment "y" "item" 4]]⟩ : Tree).lower
        (some ⟨"1"⟩) s = .ok () u ∧
      Store.Bracketed (some ⟨"1"⟩) s u ∧ u.scopes.lookup? "x" = some .value ∧ u.scopes.lookup? "y" = none ∧
      (⟨"nested_block", [Sample.foreach [Sample.node "unknown" []]]⟩ : Tree).lower (some ⟨"1"⟩) s = .error d v ∧
      v.scopes.depth = 3 ∧ Store.LeftOpen s v := by
  let steps : List Step := [.append .execute 1 { service := some "db" }, .openScope ⟨"1"⟩ ["x"]]
  obtain ⟨u, hu, hx, hy⟩ : ∃ u, (⟨"nested_block", [Sample.assignment "x" "list" 2,
      Sample.foreach [Sample.assignment "y" "item" 4]]⟩ : Tree).lower (some ⟨"1"⟩) (Step.runAll {} steps).2 = .ok () u ∧
      u.scopes.lookup? "x" = some .value ∧ u.scopes.lookup? "y" = none := by
    apply Exists.intro
    refine ⟨?_, ?_, ?_⟩ <;> rfl
  obtain ⟨d, v, hv, hdepth⟩ : ∃ d v, (⟨"nested_block", [Sample.foreach [Sample.node "unknown" []]]⟩ : Tree).lower
      (some ⟨"1"⟩) (Step.runAll {} steps).2 = .error d v ∧ v.scopes.depth = 3 := by
    apply Exists.intro
    apply Exists.intro
    refine ⟨?_, ?_⟩ <;> rfl
  exact ⟨_, u, v, d, ⟨steps, rfl⟩, rfl, rfl, hu, (lower_bracketed _ _ _).1 u hu, hx, hy, hv, hdepth,
    (lower_bracketed _ _ _).2.1 d v hv⟩

end Flowline
