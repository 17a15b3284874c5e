import Flowline.Proofs.Operands
import Flowline.Proofs.Services

/-! Loops whose condition is computed by a line. The line comes first, then the header, which tests its variable,
    then the body, and at the end of the body the line once more. The body may hold any statements: they append
    lines after the header, and the line of the condition is no longer the last one when they begin, so it is
    neither continued nor displaced, and what is copied is what it was. -/

namespace Flowline

/-! ### Where a line is entered -/

/-- The first of some lines that stands under a line. -/
def Line.bodyStart (ls : List Line) (l : Line) : Option Address :=
  (ls.find? (·.parent == some l.address)).map (·.address)

/-- A line from before, after lines were added: it is amended at most, and it is entered at the first of them that
    stands under it, unless it had been entered. -/
structure Line.Joined (new : List Line) (l l' : Line) : Prop where
  amended : l.Amended l'
  enter : l'.enter = l.enter.or (l.bodyStart new)

section Joined

variable {x y z : Line} {new new' ls ls' : List Line}

theorem Line.bodyStart_append (l : Line) (ls ls' : List Line) :
    l.bodyStart (ls ++ ls') = (l.bodyStart ls).or (l.bodyStart ls') := by
  rw [Line.bodyStart, List.find?_append, Option.map_or, Line.bodyStart, Line.bodyStart]

theorem Line.bodyStart_amended (l : Line) (h : List.Forall₂ Line.Amended ls ls') :
    l.bodyStart ls' = l.bodyStart ls := by
  induction h with
  | nil => rfl
  | @cons k k' _ _ hk _ ih =>
    unfold Line.bodyStart at ih ⊢
    rw [List.find?_cons, List.find?_cons, hk.parent]
    split
    · rw [Option.map_some, Option.map_some, hk.address]
    · exact ih

theorem Line.Amended.bodyStart (h : x.Amended y) : y.bodyStart ls = x.bodyStart ls := by
  rw [Line.bodyStart, Line.bodyStart, h.address]

/-- Lines that were added first come before those that were added later. -/
theorem Line.Joined.trans (h : x.Joined new y) (h' : y.Joined ls z) (hnew : List.Forall₂ Line.Amended new new') :
    x.Joined (new' ++ ls) z where
  amended := .trans x y z h.amended h'.amended
  enter := by
    rw [h'.enter, h.enter, h.amended.bodyStart, Line.bodyStart_append, Line.bodyStart_amended x hnew, Option.or_assoc]

/-- Lines under a header start with one right under it. -/
theorem Below.bodyStart {l : Line} (h : Below (some l.address) ls) : l.bodyStart ls = ls.head?.map (·.address) := by
  cases ls with
  | nil => rfl
  | cons k ls =>
    rw [Line.bodyStart, List.find?_cons, h.head, beq_self_eq_true]
    rfl

theorem Below.amended {p : Option Address} (h : Below p ls) (hs : List.Forall₂ Line.Amended ls ls') : Below p ls' :=
  h.of_forall₂ (fun hr => ⟨hr.address, hr.parent⟩) hs

end Joined

/-! ### Lines that are added -/

namespace Store

/-- From `s` to `t` the lines `new` were added, and lines from before are entered at them. -/
def Joins (s t : Store) (new : List Line) : Prop :=
  ∃ old, t.lines = old ++ new ∧ List.Forall₂ (Line.Joined new) s.lines old

variable {s t u : Store} {p : Option Address} {new new' : List Line}

theorem Joins.of_forall₂ (h : List.Forall₂ (fun l l' : Line => l.Amended l' ∧ l'.enter = l.enter) s.lines t.lines) :
    s.Joins t [] :=
  ⟨t.lines, (List.append_nil _).symm, h.imp fun l l' hl => ⟨hl.1, by rw [hl.2]; exact (Option.or_none).symm⟩⟩

theorem Joins.of_lines (h : t.lines = s.lines) : s.Joins t [] :=
  .of_forall₂ (h ▸ List.forall₂_same.mpr fun _ _ => ⟨rfl, rfl⟩)

theorem Joins.trans (h : s.Joins t new) (h' : t.Joins u new') :
    ∃ new₁, List.Forall₂ Line.Amended new new₁ ∧ s.Joins u (new₁ ++ new') := by
  obtain ⟨old, ht, hold⟩ := h
  obtain ⟨old', hu, hold'⟩ := h'
  rw [ht] at hold'
  obtain ⟨ys, zs, hys, hzs, rfl⟩ := forall₂_append_left hold'
  have hnew : List.Forall₂ Line.Amended new zs := hzs.imp fun _ _ hr => hr.amended
  exact ⟨zs, hnew, ys, by rw [hu, List.append_assoc],
    forall₂_trans (fun _ _ _ hx hy => hx.trans hy hnew) hold hys⟩

theorem Joins.concat {a : Address} {k : Line} (hl : t.lines = s.linkedTo p a ++ [k]) (ha : k.address = a)
    (hp : k.parent = p) : s.Joins t [k] := by
  refine ⟨_, hl, (s.touched_linkedTo p a).imp fun l l' h => ⟨by rw [Line.Amended, h.rest], ?_⟩⟩
  rw [h.enter, Line.bodyStart, List.find?_singleton, hp]
  by_cases hpl : p = some l.address
  · rw [if_pos hpl, if_pos (by simp [hpl]), Option.map_some, ha]
    cases l.enter <;> rfl
  · rw [if_neg hpl, if_neg (by simpa using hpl), Option.map_none, Option.or_none]

theorem Joins.addArgsToLast (s : Store) (m : Method) (more : List Value) : s.Joins (s.addArgsToLast m more).2 [] := by
  refine .of_forall₂ ?_
  have hamended := s.amended_addArgsToLast m more
  have hlinks := s.sameLinks_addArgsToLast m more
  generalize s.lines = ls, (s.addArgsToLast m more).2.lines = ls' at hamended hlinks
  induction hamended with
  | nil => exact .nil
  | cons hl _ ih =>
    cases hlinks with
    | cons hlink hrest => exact .cons ⟨hl, hlink.enter⟩ (ih hrest)

theorem Joins.copyLine (s : Store) (a : Address) (ln : UInt32) (p : Option Address) :
    ∃ new, s.Joins (s.copyLine a ln p).2 new ∧ Below p new := by
  rcases s.copyLine_cases a ln p with ⟨-, heq⟩ | ⟨line, -, heq⟩ <;> rw [heq]
  · exact ⟨[], .of_lines rfl, .nil⟩
  · exact ⟨_, .concat (s := s) rfl rfl rfl, .singleton rfl⟩

/-- Lines under a parent are followed by more of them. -/
theorem Joins.andThen (h : s.Joins t new) (hb : Below p new) (h' : t.Joins u new') (hb' : Below p new') :
    ∃ added, s.Joins u added ∧ Below p added := by
  obtain ⟨new₁, hnew, hj⟩ := h.trans h'
  exact ⟨_, hj, (hb.amended hnew).append hb'⟩

/-- A header under a parent is followed by lines under it. -/
theorem Joins.body {k : Line} (h : s.Joins t [k]) (hp : k.parent = p) (h' : t.Joins u new')
    (hb' : Below (some k.address) new') : ∃ added, s.Joins u added ∧ Below p added := by
  obtain ⟨new₁, hnew, hj⟩ := h.trans h'
  cases hnew with
  | @cons _ k' _ _ hk hnil =>
    cases hnil
    exact ⟨_, hj, .cons (hk.parent.trans hp) (hk.address.symm ▸ hb')⟩

end Store

/-! ### Derivations -/

section Derivations

variable {p : Option Address} {s t u : Store} {o : Outcome} {h : Address} {names : List String}

theorem Opens.joins (ho : Opens p s h names t) : ∃ k, s.Joins t [k] ∧ k.address = h ∧ k.parent = p := by
  cases ho with
  | @plain m ln d he => exact ⟨_, .concat (s.emit_lines m ln d) rfl rfl, rfl, he.parent⟩
  | @linked m ln d a he =>
    have hemit : s.Joins (s.emit m ln d) [s.newLine m ln d] := .concat (s.emit_lines m ln d) rfl rfl
    have hlink : (s.emit m ln d).Joins ((s.emit m ln d).linkExit a) [] := by
      refine .of_forall₂ (((s.emit m ln d).forall₂_linkExit a).imp fun l l' hl => ?_)
      rw [hl]
      exact ⟨rfl, rfl⟩
    obtain ⟨new₁, hnew, hj⟩ := hemit.trans hlink
    cases hnew with
    | @cons _ k _ _ hk hnil =>
      cases hnil
      exact ⟨k, hj, hk.address, hk.parent.trans he.parent⟩
  | @declared ln name parameters returns =>
    refine ⟨s.newLine .function ln (.declaration name parameters returns p), .concat ?_ rfl rfl, rfl, rfl⟩
    rw [Store.declareFunction_lines, s.emit_lines]
    rfl

/-- Whatever the store is, statements under a parent add lines under it, at which lines from before are entered. -/
theorem Lowers.joins (hl : Lowers p s o t) : ∃ new, s.Joins t new ∧ Below p new := by
  induction hl with
  | skip | stop | imports => exact ⟨[], .of_lines rfl, .nil⟩
  | andThen _ _ ih ih' =>
    obtain ⟨new, hj, hb⟩ := ih
    obtain ⟨new', hj', hb'⟩ := ih'
    exact hj.andThen hb hj' hb'
  | @continues _ s m more => exact ⟨[], .addArgsToLast s m more, .nil⟩
  | @line p s m ln d he => exact ⟨_, .concat (s.emit_lines m ln d) rfl rfl, .singleton he.parent⟩
  | @named p s m ln d path he =>
    exact ⟨_, .concat (s.nameLast_emit_lines m ln d path) rfl rfl, .singleton he.parent⟩
  | @redeclared p s ln name parameters returns =>
    exact ⟨_, .concat (s.emit_lines .function ln (.declaration name parameters returns p)) rfl rfl, .singleton rfl⟩
  | header ho =>
    obtain ⟨k, hj, -, hp⟩ := ho.joins
    exact ⟨[k], hj, .singleton hp⟩
  | block ho _ _ ih | inside ho _ _ ih =>
    obtain ⟨k, hj, rfl, hp⟩ := ho.joins
    obtain ⟨new, hj', hb⟩ := ih
    exact hj.body hp hj' hb
  | @loop p s t u h c l ln _ _ _ _ _ ho _ ih =>
    obtain ⟨k, hj, rfl, hp⟩ := ho.joins
    obtain ⟨new, hj', hb⟩ := ih
    obtain ⟨copy, hcopy, hbelow⟩ := Store.Joins.copyLine u c ln (some k.address)
    obtain ⟨added, hadded, hb'⟩ := Store.Joins.andThen hj' hb hcopy hbelow
    exact hj.body hp hadded hb'

theorem LowersBody.joins (hb : LowersBody h t u) : ∃ new, t.Joins u new ∧ Below (some h) new := by
  rcases hb with rfl | ⟨output, v, hv, rfl⟩
  · exact ⟨[], .of_lines rfl, .nil⟩
  · exact hv.joins

theorem LowersBody.extends (hb : LowersBody h t u) (ht : t.Linked) : t.Extends u := by
  rcases hb with rfl | ⟨output, v, hv, rfl⟩
  · exact .refl _
  · exact (hv.extends (s := t.openScope h output) (ht.of_lines rfl)).of_scopes.scopes

theorem LowersBody.linked (hb : LowersBody h t u) (ht : t.Linked) : u.Linked := by
  rcases hb with rfl | ⟨output, v, hv, rfl⟩
  · exact ht
  · exact (hv.linked (s := t.openScope h output) (ht.of_lines rfl)).of_lines rfl

end Derivations

/-! ### Headers and conditions -/

/-- The header of a loop under `p` that tests some operands, and the lines of its body. -/
structure Line.HeadsLoop (p : Option Address) (args : List Value) (w : Line) (body : List Line) : Prop where
  method : w.method = .while_
  parent : w.parent = p
  args : w.args = some args
  enter : w.enter = body.head?.map (·.address)
  body : Below (some w.address) body

/-- Two lines do the same, wherever they stand. -/
structure Line.DoesAs (c r : Line) : Prop where
  method : r.method = c.method
  args : r.args = c.args
  output : r.output = c.output
  service : r.service = c.service
  command : r.command = c.command
  function : r.function = c.function
  name : r.name = c.name

/-- The lines differ at most in the line that follows. -/
def Line.Refollowed (l l' : Line) : Prop :=
  l' = { l with next := l'.next }

section Lines

variable {s u : Store} {i : Nat} {l c r : Line} {new : List Line}

theorem Line.Amended.doesAs (h : c.Amended r) (ha : r.args = c.args) : c.DoesAs r := by
  refine ⟨?_, ha, ?_, ?_, ?_, ?_, ?_⟩ <;> rw [h]

theorem Line.DoesAs.symm (h : c.DoesAs r) : r.DoesAs c :=
  ⟨h.method.symm, h.args.symm, h.output.symm, h.service.symm, h.command.symm, h.function.symm, h.name.symm⟩

theorem Line.DoesAs.trans {k : Line} (h : c.DoesAs k) (h' : k.DoesAs r) : c.DoesAs r :=
  ⟨h'.method.trans h.method, h'.args.trans h.args, h'.output.trans h.output, h'.service.trans h.service,
    h'.command.trans h.command, h'.function.trans h.function, h'.name.trans h.name⟩

/-- A line that is there is copied under a parent. -/
theorem Store.joins_copyLine {a : Address} (hl : s.line? a = some l) (ln : UInt32) (p : Option Address) :
    ∃ r, s.Joins (s.copyLine a ln p).2 [r] ∧ (s.copyLine a ln p).2.lines = s.linkedTo p (s.fresh ln) ++ [r] ∧
      r.parent = p ∧ l.DoesAs r := by
  rcases s.copyLine_cases a ln p with ⟨hnone, -⟩ | ⟨line, hline, heq⟩
  · rw [hl] at hnone
    cases hnone
  · obtain rfl : l = line := Option.some.inj (hl.symm.trans hline)
    have hlines := congrArg Store.lines heq
    exact ⟨_, .concat hlines rfl rfl, hlines, rfl, rfl, rfl, rfl, rfl, rfl, rfl, rfl⟩

/-- A line appended under a header changes none of the lines after the header but for the one that it follows. -/
theorem Store.refollowed_linkedTo (hs : s.Linked) (hl : s.lines[i]? = some l) (a : Address) :
    List.Forall₂ Line.Refollowed (s.lines.drop (i + 1)) ((s.linkedTo (some l.address) a).drop (i + 1)) := by
  have htouched := List.forall₂_drop (i + 1) (s.touched_linkedTo (some l.address) a)
  refine forall₂_imp_mem htouched fun k hk k' hr => ?_
  obtain ⟨j, hj⟩ := List.mem_iff_getElem?.mp hk
  rw [List.getElem?_drop] at hj
  have hne : some l.address ≠ some k.address := fun heq => by
    have := hs.keyed.index_eq hl hj (Option.some.inj heq)
    omega
  have henter := hr.enter
  rw [if_neg hne] at henter
  rw [Line.Refollowed, hr.rest, henter]

theorem Store.Joins.drop (h : s.Joins u new) : u.lines.drop s.lines.length = new := by
  obtain ⟨old, hu, hold⟩ := h
  rw [hu, hold.length_eq, List.drop_left]

theorem Store.Joins.length_eq (h : s.Joins u new) : u.lines.length = s.lines.length + new.length := by
  obtain ⟨old, hu, hold⟩ := h
  rw [hu, List.length_append, hold.length_eq]

/-- A line that is not the last one does the same after more lines as before. -/
theorem Store.Joins.doesAs (hj : s.Joins u new) (hx : s.Extends u) (hl : s.lines[i]? = some l)
    (hi : i + 1 < s.lines.length) : ∃ l', u.lines[i]? = some l' ∧ l.Amended l' ∧ l.DoesAs l' := by
  obtain ⟨old, hu, hold⟩ := hj
  obtain ⟨l', hl', hr⟩ := forall₂_getElem?_left hold hl
  have hget : u.lines[i]? = some l' := by rw [hu, getElem?_append_some hl']
  obtain ⟨l'', hl'', hc⟩ := hx.lines i l hl
  obtain rfl : l'' = l' := Option.some.inj (hl''.symm.trans hget)
  have hargs : l''.args = l.args := hc.args.resolve_right fun hlast => by omega
  exact ⟨l'', hget, hr.amended, hr.amended.doesAs hargs⟩

/-- A header that was appended last is entered at the first line after it, and tests what it tested. -/
theorem Store.Joins.headsLoop {p : Option Address} {w : Line} {args : List Value} (hj : s.Joins u new)
    (hx : s.Extends u) (hw : s.lines[i]? = some w) (h : w.HeadsLoop p args []) (hb : Below (some w.address) new) :
    ∃ w', u.lines[i]? = some w' ∧ w'.address = w.address ∧ w'.HeadsLoop p args new := by
  obtain ⟨old, hu, hold⟩ := hj
  obtain ⟨w', hw', hr⟩ := forall₂_getElem?_left hold hw
  have hget : u.lines[i]? = some w' := by rw [hu, getElem?_append_some hw']
  obtain ⟨w'', hw'', hc⟩ := hx.lines i w hw
  obtain rfl : w'' = w' := Option.some.inj (hw''.symm.trans hget)
  have hargs : w''.args = w.args := hc.args.resolve_right fun hlast => by
    rcases hlast.2.1 with hm | hm <;> rw [h.method] at hm <;> cases hm
  refine ⟨w'', hget, hr.amended.address, hc.method.trans h.method, hr.amended.parent.trans h.parent,
    hargs.trans h.args, ?_, ?_⟩
  · rw [hr.enter, h.enter, List.head?_nil, Option.map_none, Option.none_or, hb.bodyStart]
  · rwa [hr.amended.address]

end Lines

/-! ### Loops -/

/-- The lines of a loop whose condition is computed under `p`: the line that computes it, the header, the body, and
    at its end the line that computes it again. -/
structure LoopLines (p : Option Address) (c w : Line) (body : List Line) (r : Line) : Prop where
  parent : c.parent = p
  name : c.name = some [.name c.address.operandName]
  header : w.HeadsLoop p [.ofNames [c.address.operandName]] (body ++ [r])
  repeated : r.parent = some w.address ∧ c.DoesAs r

section Loops

variable {p : Option Address} {s v : Store} {n : Nat} {c w : Line}

/-- After the line that computes the condition, the header and the body, the first is copied to the end. -/
theorem LoopLines.of_copy (hs : s.Linked) (hlength : s.lines.length = n + 2) (hc : s.lines[n]? = some c)
    (hw : s.lines[n + 1]? = some w) (hparent : c.parent = p) (hname : c.name = some [.name c.address.operandName])
    (hheader : w.HeadsLoop p [.ofNames [c.address.operandName]] []) (hb : LowersBody w.address s v) (ln : UInt32) :
    ∃ c' w' body r, (v.copyLine c.address ln (some w.address)).2.lines.drop n = c' :: w' :: (body ++ [r]) ∧
      w'.address = w.address ∧ v.lines.length = n + 2 + body.length ∧
      List.Forall₂ Line.Refollowed (v.lines.drop (n + 2)) body ∧ LoopLines p c' w' body r := by
  obtain ⟨new, hj, hnew⟩ := hb.joins
  have hx := hb.extends hs
  -- The body changes nothing in what is copied: it is not the last line when the body begins.
  obtain ⟨k, hk, hkc, hdoes⟩ := hj.doesAs hx hc (by omega)
  have hfound : v.line? c.address = some k :=
    (find?_address_iff (hb.linked hs).keyed.nodup).mpr ⟨List.mem_of_getElem? hk, hkc.address⟩
  obtain ⟨r, hcopy, hlines, hr, hcopied⟩ := Store.joins_copyLine hfound ln (some w.address)
  obtain ⟨body, hbody, hall⟩ := hj.trans hcopy
  have hextends := hx.trans (.copyLine v c.address ln (some w.address))
  obtain ⟨c', hc', hcc', hdoes'⟩ := hall.doesAs hextends hc (by omega)
  obtain ⟨w', hw', hwa, hheads⟩ :=
    hall.headsLoop hextends hw hheader ((hnew.amended hbody).append (.singleton hr))
  have hdrop := hall.drop
  rw [hlength] at hdrop
  have hrefollowed : List.Forall₂ Line.Refollowed (v.lines.drop (n + 2)) body := by
    obtain ⟨wv, hwv, hwva, -⟩ := hj.headsLoop hx hw hheader hnew
    have hlinked := v.refollowed_linkedTo (hb.linked hs) hwv (v.fresh ln)
    rw [hwva] at hlinked
    have hle : n + 2 ≤ (v.linkedTo (some w.address) (v.fresh ln)).length := by
      rw [← (v.touched_linkedTo _ _).length_eq, hj.length_eq, hlength]
      exact Nat.le_add_right _ _
    rw [hlines, List.drop_append_of_le_length hle] at hdrop
    rwa [List.append_cancel_right hdrop] at hlinked
  refine ⟨c', w', body, r, ?_, hwa, ?_, hrefollowed, hcc'.parent.trans hparent, ?_, hcc'.address.symm ▸ hheads,
    hwa.symm ▸ hr, hdoes'.symm.trans (hdoes.trans hcopied)⟩
  · rw [List.drop_eq_getElem?_toList_append, List.drop_eq_getElem?_toList_append, hc', hw', hdrop]
    rfl
  · rw [hj.length_eq, hlength, hbody.length_eq]
  · rw [hdoes'.name, hname, hcc'.address]

end Loops

/-! ### Lowered loops -/

open LowerM

section Lowered

variable {t : Tree} {p : Option Address} {s u : Store}

/-- A loop is lowered by reading its condition, appending its header and lowering its body. A line that computes the
    condition is copied at the end. -/
theorem lowerWhile_eq_ok {parts : List (Part Store)} (h : lowerWhile t parts p s = .ok () u) :
    ∃ statement ln o s₁ v, t.child "while_statement" = .ok statement ∧ headerOperand statement p s = .ok o s₁ ∧
      Part.lowerBody parts (s₁.fresh ln) none (s₁.append .while_ ln { args := some o.args, parent := p }).2 = .ok () v ∧
      u = match o.line with
        | none => v
        | some a => (v.copyLine a ln (some (s₁.fresh ln))).2 := by
  simp only [lowerWhile, bind_eq_ok, lookUp_eq_ok, append_eq_ok] at h
  obtain ⟨statement, _, ⟨hstatement, rfl⟩, ln, _, ⟨-, rfl⟩, o, s₁, ho, _, _, ⟨rfl, rfl⟩, _, v, hv, hu⟩ := h
  refine ⟨statement, ln, o, s₁, v, hstatement, ho, hv, ?_⟩
  cases hline : o.line with
  | none =>
    rw [hline] at hu
    exact (pure_eq_ok.mp hu).2
  | some a =>
    rw [hline] at hu
    obtain ⟨_, _, hcopy, hpure⟩ := bind_eq_ok.mp hu
    rw [(pure_eq_ok.mp hpure).2]
    cases hcopy
    rfl

theorem computesOperand_of_tag {statement operand : Tree} (ho : statement.innerOperand = .ok operand) :
    (operand.tag ∈ ["service", "mutation", "call_expression"] → statement.computesOperand = true) ∧
      (operand.tag ∈ ["expression", "values", "path"] → statement.computesOperand = false) := by
  rw [Tree.computesOperand, ho]
  simp only [List.mem_cons, List.not_mem_nil, or_false]
  constructor
  · rintro (h | h | h) <;> rw [h] <;> rfl
  · rintro (h | h | h) <;> rw [h] <;> rfl

/-- The line that is appended is the last one. -/
theorem Store.append_getElem? (s : Store) (m : Method) (ln : UInt32) (d : Draft) :
    (s.append m ln d).2.lines[s.lines.length]? = some (s.newLine m ln d) ∧
      (s.append m ln d).2.lines.length = s.lines.length + 1 := by
  have hlength := (s.touched_linkedTo d.parent (s.fresh ln)).length_eq
  rw [s.append_lines, hlength]
  simp

/-- From `v` to `v'`, the statements of the body of a tree were lowered in order under its header, in a scope of their
    own. Without a body nothing changes. -/
def Tree.LowersStatements (t : Tree) (header : Address) (v v' : Store) : Prop :=
  match t.child? "nested_block" with
  | none => v' = v
  | some nested => ∃ w, nested.subtrees.forM (·.lower (some header)) (v.openScope header []) = .ok () w ∧
      v' = w.closeScope header

theorem Tree.lowersStatements_of_lowerBody {header : Address} {v v' : Store}
    (h : Part.lowerBody (t.subtrees.map fun c => ⟨c, c.lower⟩) header none v = .ok () v') :
    t.LowersStatements header v v' := by
  have hfind : (t.subtrees.map fun c => (⟨c, c.lower⟩ : Part Store)).find? (·.tree.tag == "nested_block") =
      (t.child? "nested_block").map fun c => ⟨c, c.lower⟩ := List.find?_map
  unfold Part.lowerBody at h
  unfold Tree.LowersStatements
  rw [hfind] at h
  cases hc : t.child? "nested_block" with
  | none =>
    rw [hc] at h
    exact (pure_eq_ok.mp h).2
  | some nested =>
    have hstatements : (nested.lower (some header) : LowerM Store Unit) =
        nested.subtrees.forM (·.lower (some header)) := by
      rw [Tree.lower_eq, LowerM.statement, (Tree.child?_eq_some hc).2]
      exact List.forM_map
    rw [hc] at h
    obtain ⟨_, _, hopen, hrest⟩ := bind_eq_ok.mp h
    obtain ⟨_, w, hw, hclose⟩ := bind_eq_ok.mp hrest
    cases hopen
    cases hclose
    exact ⟨w, hstatements ▸ hw, rfl⟩

/-- Once `k` lines were added to those of `s`, lowering the statements of the body of a tree under its header added
    these lines. What has been added since changes at most which line follows them. -/
def Tree.AddsBody (t : Tree) (s : Store) (k : Nat) (header : Address) (body : List Line) (u : Store) : Prop :=
  ∃ v v', s.Appends v ∧ v.lines.length = s.lines.length + k ∧ t.LowersStatements header v v' ∧
    v'.lines.length = v.lines.length + body.length ∧
    List.Forall₂ Line.Refollowed (v'.lines.drop v.lines.length) body ∧ v'.Appends u

end Lowered

/-- In any store that a session reaches, a loop that is lowered under a parent adds its lines after those that are
    there. If its condition is a call or a mutation, the line that computes it stands before the header and again at
    the end of the body; if it is an expression or a value, the header has it and there are no such lines. -/
theorem lower_while {t statement operand : Tree} {p : Option Address} {s u : Store} (hs : s.Reachable)
    (ht : t.tag = "while_block") (hst : t.child "while_statement" = .ok statement)
    (ho : statement.innerOperand = .ok operand) (h : t.lower p s = .ok () u) :
    s.Appends u ∧ u.services.Nodup ∧ u.scopes.depth = s.scopes.depth ∧
      (operand.tag ∈ ["service", "mutation", "call_expression"] →
        ∃ c w body r, u.lines.drop s.lines.length = c :: w :: (body ++ [r]) ∧ LoopLines p c w body r ∧
          t.AddsBody s 2 w.address body u) ∧
      (operand.tag ∈ ["expression", "values", "path"] →
        ∃ args w body, u.lines.drop s.lines.length = w :: body ∧ w.HeadsLoop p args body ∧
          t.AddsBody s 1 w.address body u) := by
  have hdone := Tree.lower_done h
  refine ⟨hdone.appends, hdone.services_nodup hs.services_nodup, ((lower_bracketed s t p).1 u h).depth, ?_⟩
  have hlinked := hs.linked
  rw [t.lower_eq, LowerM.statement, ht] at h
  obtain ⟨statement', ln, o, s₁, v, hst', hread, hv, rfl⟩ := lowerWhile_eq_ok h
  obtain rfl : statement = statement' := Except.ok.inj (hst.symm.trans hst')
  obtain ⟨hoperand, hcomputed⟩ := headerOperand_ends.of_ok hread
  have hbody := (lowerBody_lowersBody t.parts_sound (s₁.fresh ln) none).of_ok hv
  obtain ⟨htrue, hfalse⟩ := computesOperand_of_tag ho
  cases hoperand with
  | @plain args =>
    refine ⟨fun htag => ?_, fun _ => ?_⟩
    · rw [htrue htag] at hcomputed
      cases hcomputed
    · have hheader : (s.newLine .while_ ln { args := some args, parent := p }).HeadsLoop p args [] :=
        ⟨rfl, rfl, rfl, rfl, .nil⟩
      obtain ⟨hlast, hlength⟩ := s.append_getElem? .while_ ln { args := some args, parent := p }
      have hafter := hlinked.append .while_ ln { args := some args, parent := p }
      obtain ⟨new, hj, hnew⟩ := hbody.joins
      obtain ⟨w, hw, hwa, hheads⟩ := hj.headsLoop (hbody.extends hafter) hlast hheader hnew
      have hdrop := hj.drop
      rw [hlength] at hdrop
      have hsame : List.Forall₂ Line.Refollowed (v.lines.drop (s.lines.length + 1)) new :=
        hdrop ▸ List.forall₂_same.mpr fun _ _ => rfl
      refine ⟨args, w, new, ?_, hheads, _, v, .linkedTo (s.append_lines .while_ ln _), hlength,
        Tree.lowersStatements_of_lowerBody (hwa.symm ▸ hv), hj.length_eq, hlength.symm ▸ hsame, .of_lines rfl⟩
      rw [List.drop_eq_getElem?_toList_append, hw, hdrop]
      rfl
  | @computed m ln' d he hm =>
    refine ⟨fun _ => ?_, fun htag => ?_⟩
    · have hlines := s.nameLast_emit_lines m ln' d [.name (s.fresh ln').operandName]
      rw [he.parent] at hlines
      obtain ⟨c, hc, hr, hw, hlength⟩ := Store.WellNamed.two_appended (fun _ => False) hlines .while_ ln
        { args := some [.ofNames [(s.fresh ln').operandName]], parent := p }
      have hca : c.address = s.fresh ln' := hr.address
      have hname : c.name = some [.name c.address.operandName] := by
        rw [hr.name, hca]
      have hafter := ((hlinked.emit m ln' d).nameLast [.name (s.fresh ln').operandName]).append .while_ ln
        { args := some [.ofNames [(s.fresh ln').operandName]], parent := p }
      obtain ⟨c', w, body, r, hdrop, hwa, hbodyLength, hrefollowed, hloop⟩ := LoopLines.of_copy hafter hlength hc hw
        (hr.parent.trans he.parent) hname (hca.symm ▸ ⟨rfl, rfl, rfl, rfl, .nil⟩) hbody ln
      rw [hca] at hdrop
      have hadded := (Store.Appends.linkedTo hlines).trans (.linkedTo (Store.append_lines _ .while_ ln
        { args := some [.ofNames [(s.fresh ln').operandName]], parent := p }))
      exact ⟨c', w, body, r, hdrop, hloop, _, v, hadded, hlength, Tree.lowersStatements_of_lowerBody (hwa.symm ▸ hv),
        hbodyLength.trans (congrArg (· + body.length) hlength.symm), hlength.symm ▸ hrefollowed, .copyLine _ _ _ _⟩
    · rw [hfalse htag] at hcomputed
      cases hcomputed

/-- A loop on a service call, whose body calls the service too and continues that call. -/
def Sample.draining : Tree :=
  Shape.whileBlock (Shape.service "db" (some "poll") [] [] 2)
    [Shape.assignment "x" (Shape.values (Shape.int 2 3)) 3, Shape.service "db" (some "push") [] [] 4,
      Shape.argument (some "k") (Shape.path "x" 5) 5] 2

/-- The operands of the two lines of its body. -/
def Sample.drained : Option (List Value) → Option (List Value) → Bool
  | some [.number (.int 2)], some [.argument ⟨some "k", .path [.name "x"]⟩] => true
  | _, _ => false

theorem Sample.drained_iff {xs ys : Option (List Value)} : Sample.drained xs ys = true ↔
    xs = some [.number (.int 2)] ∧ ys = some [.argument ⟨some "k", .ofNames ["x"]⟩] := by
  unfold Sample.drained
  split <;> simp_all [Value.ofNames]

theorem lower_while_draining :
    ∃ s u, s.Reachable ∧ Sample.draining.lower (some ⟨"1"⟩) s = .ok () u ∧ u.services = ["db"] ∧
      u.scopes.depth = s.scopes.depth ∧
      ∃ c w x push r, u.lines.drop 1 = [c, w, x, push, r] ∧ LoopLines (some ⟨"1"⟩) c w [x, push] r ∧
        Sample.draining.AddsBody s 2 w.address [x, push] u ∧
        [x, push].map (fun l => (l.method, l.assigned?, l.service, l.command)) =
          [(.set_, some "x", none, none), (.execute, none, some "db", some "push")] ∧
        [x, push].map (fun l => (l.address.text, l.parent, l.next)) =
          [("3", some ⟨"2.1"⟩, some ⟨"4"⟩), ("4", some ⟨"2.1"⟩, some ⟨"2.2"⟩)] ∧
        x.args = some [.number (.int 2)] ∧ push.args = some [.argument ⟨some "k", .ofNames ["x"]⟩] := by
  let steps : List Step := [.append .function 1 { function := some "f" }]
  let after := ((Step.lower Sample.draining (some ⟨"1"⟩)).run (Step.runAll {} steps).2).2
  have hs : (Step.runAll {} steps).2.Reachable := ⟨steps, rfl⟩
  have hafter : after.services = ["db"] ∧
      ((after.lines.drop 3).take 2).map (fun l => (l.method, l.assigned?, l.service, l.command)) =
        [(.set_, some "x", none, none), (.execute, none, some "db", some "push")] ∧
      ((after.lines.drop 3).take 2).map (fun l => (l.address.text, l.parent, l.next)) =
        [("3", some ⟨"2.1"⟩, some ⟨"4"⟩), ("4", some ⟨"2.1"⟩, some ⟨"2.2"⟩)] ∧
      Sample.drained (after.lines[3]?.bind (·.args)) (after.lines[4]?.bind (·.args)) = true ∧
      after.lines.length = 6 := by
    decide +kernel
  obtain ⟨u, hu⟩ : ∃ u, Sample.draining.lower (some ⟨"1"⟩) (Step.runAll {} steps).2 = .ok () u :=
    ok_of_isSome (by decide +kernel)
  have hrun : after = u := by simp only [after, Step.run, Step.runOn, hu, Reply.ofLowering]
  rw [hrun] at hafter
  obtain ⟨hservices, hfields, hlinks, hargs, hlength⟩ := hafter
  obtain ⟨-, -, hdepth, hcomputed, -⟩ := lower_while hs rfl rfl rfl hu
  obtain ⟨c, w, body, r, hdrop, hloop, hbody⟩ := hcomputed (by decide)
  replace hdrop : u.lines.drop 1 = c :: w :: (body ++ [r]) := hdrop
  have hsize : body.length = 2 := by
    have hcount := congrArg List.length hdrop
    rw [List.length_drop, hlength] at hcount
    simpa using hcount.symm
  obtain ⟨x, push, rfl⟩ := List.length_eq_two.mp hsize
  have hrest : u.lines.drop 3 = [x, push, r] := by rw [← List.drop_drop (i := 2) (j := 1), hdrop]; rfl
  have hx : u.lines[3]? = some x := by rw [← List.getElem?_drop (i := 3) (j := 0), hrest]; rfl
  have hpush : u.lines[4]? = some push := by rw [← List.getElem?_drop (i := 3) (j := 1), hrest]; rfl
  rw [hrest] at hfields hlinks
  rw [hx, hpush] at hargs
  obtain ⟨hxargs, hpushargs⟩ := Sample.drained_iff.mp hargs
  exact ⟨_, u, hs, hu, hservices, hdepth, c, w, x, push, r, hdrop, hloop, hbody, hfields, hlinks, hxargs, hpushargs⟩

end Flowline
