import Flowline.Proofs.Checked
import Flowline.Proofs.Sessions

/-! Chains of branches. An `if` with its `else if`s and its `else`, or a `try` with its `catch` and its
    `finally`, is lowered to branches in a row under one parent. Each branch is left for the start of the
    next one, and the last is not left at all. The bodies hold what they will: their lines stand under the
    headers, so no branch in them is taken for one of the chain. -/

namespace Flowline

/-! ### Lines that stay -/

/-- A line from before, after statements under `p` that do not change how it is left. -/
structure Line.Stays (p : Option Address) (l l' : Line) : Prop extends Line.Kept p l l' where
  exits : l'.exit = l.exit

namespace Line.Stays

variable {p : Option Address} {l l' : Line}

theorem trans (x y z : Line) (h : x.Stays p y) (h' : y.Stays p z) : x.Stays p z :=
  ⟨.trans x y z h.toKept h'.toKept, h'.exits.trans h.exits⟩

theorem of_touched {a : Address} (h : Store.Touched p a l l') : l.Stays p l' :=
  ⟨.of_touched h, by rw [h.rest]⟩

theorem linkedTo (s : Store) (p : Option Address) (a : Address) :
    List.Forall₂ (Line.Stays p) s.lines (s.linkedTo p a) :=
  (Store.touched_linkedTo s p a).imp fun _ _ => of_touched

/-- What stands neither at nor under a header stays when the body of the header is lowered. -/
theorem of_kept {h : Address} (hk : l.Kept (some h) l') (ha : l.address ≠ h) (hp : l.parent ≠ some h) : l.Stays p l' :=
  ⟨hk.weaken (fun heq => ha (Option.some.inj heq).symm) hp, hk.exit.resolve_right fun hx => hp hx.2⟩

end Line.Stays

/-- The nearest branch before a line with the same parent is the one that is left for it. -/
theorem Store.linkExit_eq {s : Store} {pre mid post : List Line} {b target : Line} (hk : Keyed s.lines)
    (hl : s.lines = pre ++ b :: (mid ++ target :: post)) (hp : b.parent = target.parent)
    (hb : b.method.isBranch = true)
    (hmid : ∀ k ∈ mid, ¬(k.parent = target.parent ∧ k.method.isBranch = true)) :
    (s.linkExit target.address).lines = pre ++ { b with exit := some target.address } :: (mid ++ target :: post) := by
  have hsplit : s.lines = (pre ++ b :: mid) ++ target :: post := by rw [hl, List.append_assoc, List.cons_append]
  have hbefore : ∀ k ∈ pre ++ b :: mid, (k.address != target.address) = true := by
    intro k hmem
    have hnodup := hk.nodup
    rw [hsplit, List.map_append, List.nodup_append] at hnodup
    exact bne_iff_ne.mpr (hnodup.2.2 _ (List.mem_map_of_mem hmem) _ (List.mem_map_of_mem List.mem_cons_self))
  have htake : s.lines.takeWhile (·.address != target.address) = pre ++ b :: mid := by
    rw [hsplit, List.takeWhile_append_of_pos hbefore]
    simp
  have hdrop : s.lines.dropWhile (·.address != target.address) = target :: post := by
    rw [hsplit, List.dropWhile_append_of_pos hbefore]
    simp
  rw [Store.linkExit, htake, hdrop]
  have hmid' : ∀ k ∈ mid, (k.parent == target.parent && k.method.isBranch) = false := fun k hk => by
    have := hmid k hk
    by_cases hkp : k.parent = target.parent
    · simpa [hkp] using this
    · simp [hkp]
  have hupdate : Line.updateLastWhere? (fun l => l.parent == target.parent && l.method.isBranch)
      (fun l => { l with exit := some target.address }) (pre ++ b :: mid) =
        some (pre ++ { b with exit := some target.address } :: mid) :=
    Line.updateLastWhere?_eq (by simp [hp, hb]) hmid' pre
  simp only [hupdate, Option.getD_some, List.append_assoc, List.cons_append]

/-! ### Branches and their lines -/

/-- A branch as the syntax gives it: the method of its header, the tree from whose source line the header
    comes, and whether its condition is computed by a line of its own. -/
structure Arm where
  method : Method
  source : Tree
  computed : Bool := false

namespace Tree

/-- The branch whose condition stands below the statement with this tag. -/
def conditional (method : Method) (tag : String) (t : Tree) : Arm :=
  let statement := (t.child? tag).getD t
  { method, source := statement, computed := statement.computesOperand }

/-- The branches of an `if`. -/
def ifArms (t : Tree) : List Arm :=
  t.conditional .if_ "if_statement" ::
    ((t.childrenTagged "elseif_block").map (conditional .elif "elseif_statement") ++
      (t.child? "else_block").toList.map fun last => { method := .else_, source := last })

/-- The branches of a `try`. -/
def tryArms (t : Tree) : List Arm :=
  { method := .try_, source := t } ::
    ((t.child? "catch_block").toList.map (fun c =>
        { method := .catch_, source := (c.child? "catch_statement").getD c }) ++
      (t.child? "finally_block").toList.map fun last => { method := .finally_, source := last })

end Tree

/-- The lines of one branch: the one that computes its condition, where there is one, its header and its body. -/
structure Branch where
  condition : Option Line
  header : Line
  body : List Line

namespace Branch

def lines (b : Branch) : List Line :=
  b.condition.toList ++ b.header :: b.body

/-- The first line of a branch. -/
def start (b : Branch) : Line :=
  b.condition.getD b.header

/-- The lines are those of the branch that the syntax gives: the condition and the header stand under `p`, and
    the body stands under the header. -/
structure Renders (p : Option Address) (arm : Arm) (b : Branch) : Prop where
  method : b.header.method = arm.method
  line : arm.source.line = .ok b.header.sourceLine
  parent : b.header.parent = p
  computed : b.condition.isSome = arm.computed
  condition : ∀ c ∈ b.condition,
    c.parent = p ∧ c.method.computes = true ∧ c.name = some [.name c.address.operandName]
  body : Below (some b.header.address) b.body

variable {p q : Option Address} {arm : Arm} {b b' : Branch}

theorem start_mem (b : Branch) : b.start ∈ b.lines := by
  unfold start lines
  cases b.condition <;> simp

theorem lines_eq (b : Branch) : ∃ post, b.lines = b.start :: post := by
  unfold start lines
  cases b.condition with
  | none => exact ⟨b.body, rfl⟩
  | some c => exact ⟨b.header :: b.body, rfl⟩

theorem Renders.start_parent (h : b.Renders p arm) : b.start.parent = p := by
  unfold start
  cases hc : b.condition with
  | none => exact h.parent
  | some c => exact (h.condition c hc).1

/-- The lines of a branch may change in what statements elsewhere may change. -/
theorem Renders.of_kept (h : b.Renders p arm) (hc : Option.Rel (Line.Kept q) b.condition b'.condition)
    (hh : b.header.Kept q b'.header) (hbody : Below (some b'.header.address) b'.body) : b'.Renders p arm where
  method := hh.method.trans h.method
  line := hh.sourceLine ▸ h.line
  parent := hh.parent.trans h.parent
  computed := by
    rw [← h.computed]
    generalize b.condition = x, b'.condition = y at hc
    cases hc <;> rfl
  condition c' hc' := by
    rw [Option.mem_def] at hc'
    rw [hc'] at hc
    generalize hx : b.condition = x at hc
    cases hc with
    | @some c _ hr =>
      obtain ⟨hp, hm, hn⟩ := h.condition c hx
      exact ⟨hr.parent.trans hp, hr.method ▸ hm, by rw [hr.name, hr.address, hn]⟩
  body := hbody

theorem start_address (hc : Option.Rel (Line.Kept q) b.condition b'.condition) (hh : b.header.Kept q b'.header) :
    b'.start.address = b.start.address := by
  unfold start
  generalize b.condition = x, b'.condition = y at hc
  cases hc with
  | none => exact hh.address
  | some hr => exact hr.address

end Branch

/-- From `s` to `t` a chain of branches was appended under `p`. No line from before is left otherwise than it
    was; each branch is left for the first line of the next, and the last branch for none. -/
def Store.Chain (p : Option Address) (s t : Store) (arms : List Arm) : Prop :=
  ∃ old branches, t.lines = old ++ branches.flatMap Branch.lines ∧ List.Forall₂ (Line.Stays p) s.lines old ∧
    List.Forall₂ (Branch.Renders p) arms branches ∧
    branches.map (·.header.exit) = branches.tail.map (fun b => some b.start.address) ++ [none]

/-! ### One branch -/

/-- The condition of a branch, if it is computed, and its header are appended; `h` is the address of the header
    and `a` that of the first of these lines. -/
inductive Heads (p : Option Address) (s : Store) (arm : Arm) : Address → Address → Store → Prop
  | mk {o : Operand} {t : Store} {ln : UInt32} {d : Draft} (ho : OperandRead p s o t)
      (hc : o.line.isSome = arm.computed) (hl : arm.source.line = .ok ln) (he : Emits t p arm.method d)
      (hm : arm.method.opensBody = true) :
      Heads p s arm (t.fresh ln) (o.line.getD (t.fresh ln)) (t.emit arm.method ln d)

/-- The body of a header is lowered, if it has one. -/
def LowersBody (h : Address) (t u : Store) : Prop :=
  u = t ∨ ∃ output v, Lowers (some h) (t.openScope h output) .done v ∧ u = v.closeScope h

section OneBranch

variable {p : Option Address} {s t u : Store} {arm : Arm} {h a : Address}

theorem LowersBody.grows (hb : LowersBody h t u) (ht : t.Linked) (hg : t.Grounded) (hh : t.Has (some h)) :
    Store.Grows (some h) t u := by
  rcases hb with rfl | ⟨output, v, hv, rfl⟩
  · exact .of_lines rfl
  · exact hv.grows (s := t.openScope h output) (ht.of_lines rfl) hg hh

theorem Heads.lines (hh : Heads p s arm h a t) : ∃ (old : List Line) (b : Branch), t.lines = old ++ b.lines ∧
    List.Forall₂ (Line.Stays p) s.lines old ∧ b.Renders p arm ∧ b.body = [] ∧ b.header.exit = none ∧
    b.header.address = h ∧ b.start.address = a := by
  obtain @⟨o, t, ln, d, ho, hc, hl, he, hm⟩ := hh
  have hlines := t.emit_lines arm.method ln d
  have hstays := Line.Stays.linkedTo t p (t.fresh ln)
  rw [he.parent] at hlines
  cases ho with
  | plain =>
    refine ⟨_, ⟨none, s.newLine arm.method ln d, []⟩, hlines, hstays, ?_, rfl, rfl, rfl, rfl⟩
    exact ⟨rfl, hl, he.parent, hc, fun _ hnone => (nomatch hnone), .nil⟩
  | @computed m ln' d' he' hm' =>
    have hbefore := s.nameLast_emit_lines m ln' d' [.name (s.fresh ln').operandName]
    rw [he'.parent] at hbefore
    rw [hbefore] at hstays
    obtain ⟨old, cs, hold, hcs, hsplit⟩ := forall₂_append_left hstays
    cases hcs with
    | @cons _ c _ _ hr hnil =>
      cases hnil
      have hfirst := Line.Stays.linkedTo s p (s.fresh ln')
      refine ⟨old, ⟨some c, Store.newLine _ arm.method ln d, []⟩, ?_, forall₂_trans Line.Stays.trans hfirst hold,
        ⟨rfl, hl, he.parent, hc, fun c' hc' => ?_, .nil⟩, rfl, rfl, rfl, hr.address⟩
      · rw [hlines, hsplit, List.append_assoc]
        rfl
      · obtain rfl := Option.some.inj hc'
        refine ⟨hr.parent.trans he'.parent, ?_, ?_⟩
        · rw [hr.method]
          exact hm'
        · rw [hr.name, hr.address]
          rfl

theorem Heads.opens (hh : Heads p s arm h a t) :
    ∃ s' names, Lowers p s .done s' ∧ Opens p s' h names t ∧ Opens p s' h names (t.linkExit a) := by
  have hlines := hh.lines
  obtain @⟨o, s', ln, d, ho, -, -, he, hm⟩ := hh
  obtain ⟨old, b, ht, -, hb, -, -, -, ha⟩ := hlines
  refine ⟨s', _, operandRead_lowers ho, .plain he hm, .linked he hm ⟨b.start, ?_, ha, hb.start_parent⟩⟩
  rw [ht]
  exact List.mem_append_right _ b.start_mem

theorem rel_of_forall₂_toList {R : Line → Line → Prop} {c : Option Line} {ys : List Line}
    (h : List.Forall₂ R c.toList ys) : ∃ c', ys = c'.toList ∧ Option.Rel R c c' := by
  cases c with
  | none =>
    cases h
    exact ⟨none, rfl, .none⟩
  | some x =>
    cases h with
    | @cons _ y _ _ hr hnil =>
      cases hnil
      exact ⟨some y, rfl, .some hr⟩

/-- The body of a header comes after it, and changes nothing in how the lines before are left. -/
theorem LowersBody.lines {s' : Store} {names : List String} {old : List Line} {b : Branch} (hb : LowersBody h t u)
    (ho : Opens p s' h names t) (hs : s'.Linked) (hg : s'.Grounded) (hp : s'.Has p) (ht : t.lines = old ++ b.lines)
    (hr : b.Renders p arm) (hbody : b.body = []) (hh : b.header.address = h) :
    ∃ (old' : List Line) (b' : Branch), u.lines = old' ++ b'.lines ∧ List.Forall₂ (Line.Stays p) old old' ∧
      b'.Renders p arm ∧ b'.header.exit = b.header.exit ∧ b'.start.address = b.start.address := by
  have hlinked := ho.keeps_linked hs
  have hchildless := ho.childless hs hg hp
  obtain ⟨kept, new, hu, hkept, hnew⟩ := hb.grows hlinked ((ho.grows hs).grounded hg hp) (ho.has hs)
  have hsplit : t.lines = (old ++ b.condition.toList) ++ [b.header] := by
    rw [ht, Branch.lines, hbody, List.append_assoc]
  have hstays : ∀ {l l' : Line}, l ∈ old ++ b.condition.toList → l.Kept (some h) l' → l.Stays p l' := by
    intro l l' hl hk
    have hnodup := hlinked.keyed.nodup
    rw [hsplit, List.map_append, List.nodup_append] at hnodup
    refine .of_kept hk (fun ha => ?_) (hchildless l (by rw [hsplit]; exact List.mem_append_left _ hl))
    exact hnodup.2.2 l.address (List.mem_map_of_mem hl) b.header.address (by simp) (ha.trans hh.symm)
  rw [hsplit] at hkept
  obtain ⟨front, hs', hfront, hheader, rfl⟩ := forall₂_append_left hkept
  obtain ⟨old', cs, hold, hcs, rfl⟩ := forall₂_append_left hfront
  obtain ⟨c', rfl, hc⟩ := rel_of_forall₂_toList hcs
  cases hheader with
  | @cons _ header' _ _ hr' hnil =>
    cases hnil
    have hne : b.header.parent ≠ some h := hchildless b.header (by simp [hsplit])
    refine ⟨old', ⟨c', header', new⟩, ?_, ?_, hr.of_kept hc hr' ?_, ?_, Branch.start_address hc hr'⟩
    · rw [hu, Branch.lines, List.append_assoc, List.append_assoc]
      rfl
    · exact forall₂_imp_mem hold fun l hl l' hk => hstays (List.mem_append_left _ hl) hk
    · rw [hr'.address, hh]
      exact hnew
    · exact hr'.exit.resolve_right fun hx => hne hx.2

/-- The next branch: the branch before it under the same parent is left for its start. -/
theorem Heads.next_lines {t' : Store} {pre mid : List Line} {pb : Line} (hh : Heads p t arm h a t')
    (hb : LowersBody h (t'.linkExit a) u) (hs : t.Linked) (hg : t.Grounded) (hp : t.Has p)
    (ht : t.lines = pre ++ pb :: mid) (hpb : pb.parent = p) (hbranch : pb.method.isBranch = true)
    (hmid : ∀ k ∈ mid, k.parent ≠ p) :
    ∃ (pre' mid' : List Line) (pb' : Line) (b : Branch), u.lines = (pre' ++ pb' :: mid') ++ b.lines ∧
      List.Forall₂ (Line.Stays p) pre pre' ∧ pb.Kept p pb' ∧ pb'.exit = some b.start.address ∧
      List.Forall₂ (Line.Stays p) mid mid' ∧ b.Renders p arm ∧ b.header.exit = none := by
  obtain ⟨old, b, ht', hold, hr, hbody, hexit, hha, hsa⟩ := hh.lines
  obtain ⟨s', names, hl, hplain, ho⟩ := hh.opens
  have hst := hl.grows hs hg hp
  have hs' := hl.linked hs
  rw [ht] at hold
  obtain ⟨pre₁, rest, hpre, hrest, rfl⟩ := forall₂_append_left hold
  cases hrest with
  | @cons _ pb₁ _ mid₁ hpb₁ hmid₁ =>
    obtain ⟨post, hpost⟩ := b.lines_eq
    have hbefore : t'.lines = pre₁ ++ pb₁ :: (mid₁ ++ b.start :: post) := by
      rw [ht', hpost, List.append_assoc, List.cons_append]
    have hnear : ∀ k ∈ mid₁, ¬(k.parent = b.start.parent ∧ k.method.isBranch = true) := by
      rintro k hk ⟨hkp, -⟩
      obtain ⟨k', hk', hr'⟩ := forall₂_mem_right hmid₁ k hk
      exact hmid k' hk' (by rw [← hr'.parent, hkp, hr.start_parent])
    have hparent : pb₁.parent = b.start.parent := by rw [hpb₁.parent, hpb, hr.start_parent]
    have hlink : (t'.linkExit a).lines = (pre₁ ++ { pb₁ with exit := some a } :: mid₁) ++ b.lines := by
      rw [← hsa, Store.linkExit_eq (hplain.keeps_linked hs').keyed hbefore hparent (hpb₁.method ▸ hbranch) hnear, hpost,
        List.append_assoc, List.cons_append]
    obtain ⟨old', b', hu, hold', hr', hexit', hstart⟩ :=
      hb.lines ho hs' (hst.grounded hg hp) (hst.has hp) hlink hr hbody hha
    obtain ⟨pre₂, rest, hpre₂, hrest, rfl⟩ := forall₂_append_left hold'
    cases hrest with
    | @cons _ pb₂ _ mid₂ hpb₂ hmid₂ =>
      refine ⟨pre₂, mid₂, pb₂, b', hu, forall₂_trans Line.Stays.trans hpre hpre₂, ?_, ?_,
        forall₂_trans Line.Stays.trans hmid₁ hmid₂, hr', hexit'.trans hexit⟩
      · -- The branch is kept but for its way out, which is that of a branch under the parent.
        have hlinked : pb₁.Kept p { pb₁ with exit := some a } :=
          ⟨rfl, fun _ _ => rfl, Or.inl rfl, Or.inr ⟨hpb₁.method ▸ hbranch, hpb₁.parent.trans hpb⟩⟩
        exact .trans _ _ _ hpb₁.toKept (.trans _ _ _ hlinked hpb₂.toKept)
      · rw [hpb₂.exits, hstart, hsa]

end OneBranch

/-! ### Chains that grow -/

/-- The lines of a branch stay as they are. -/
structure Branch.Stays (p : Option Address) (b b' : Branch) : Prop where
  condition : Option.Rel (Line.Stays p) b.condition b'.condition
  header : b.header.Stays p b'.header
  body : List.Forall₂ (Line.Stays p) b.body b'.body

section Chains

variable {p : Option Address} {s t u : Store} {arm : Arm} {h a : Address}

theorem rel_kept {c c' : Option Line} (h : Option.Rel (Line.Stays p) c c') : Option.Rel (Line.Kept p) c c' := by
  cases h with
  | none => exact .none
  | some hr => exact .some hr.toKept

theorem Branch.Renders.stays {b b' : Branch} (h : b.Renders p arm) (hs : b.Stays p b') : b'.Renders p arm := by
  refine h.of_kept (rel_kept hs.condition) hs.header.toKept ?_
  rw [hs.header.address]
  exact h.body.kept (hs.body.imp fun _ _ hr => hr.toKept)

theorem Branch.Stays.start_eq {b b' : Branch} (hs : b.Stays p b') : b'.start.address = b.start.address :=
  Branch.start_address (rel_kept hs.condition) hs.header.toKept

/-- Lines that stay can be read as the branches that they were. -/
theorem branches_of_stays : ∀ {bs : List Branch} {ys : List Line},
    List.Forall₂ (Line.Stays p) (bs.flatMap Branch.lines) ys →
      ∃ bs', ys = bs'.flatMap Branch.lines ∧ List.Forall₂ (Branch.Stays p) bs bs'
  | [], _, h => by
    cases h
    exact ⟨[], rfl, .nil⟩
  | b :: bs, _, h => by
    rw [List.flatMap_cons] at h
    obtain ⟨own, rest, hown, hrest, rfl⟩ := forall₂_append_left h
    obtain ⟨cs, hb, hcs, hhb, rfl⟩ := forall₂_append_left hown
    obtain ⟨c', rfl, hc⟩ := rel_of_forall₂_toList hcs
    obtain ⟨bs', rfl, hbs⟩ := branches_of_stays hrest
    cases hhb with
    | @cons _ header' _ body' hheader hbody => exact ⟨⟨c', header', body'⟩ :: bs', rfl, .cons ⟨hc, hheader, hbody⟩ hbs⟩

theorem Heads.chain (hh : Heads p s arm h a t) (hb : LowersBody h t u) (hs : s.Linked) (hg : s.Grounded)
    (hp : s.Has p) : Store.Chain p s u [arm] := by
  obtain ⟨old, b, ht, hold, hr, hbody, hexit, hha, -⟩ := hh.lines
  obtain ⟨s', names, hl, ho, -⟩ := hh.opens
  have hst := hl.grows hs hg hp
  obtain ⟨old', b', hu, hold', hr', hexit', -⟩ :=
    hb.lines ho (hl.linked hs) (hst.grounded hg hp) (hst.has hp) ht hr hbody hha
  refine ⟨old', [b'], ?_, forall₂_trans Line.Stays.trans hold hold', .cons hr' .nil, ?_⟩
  · rw [hu, List.flatMap_singleton]
  · simp [hexit', hexit]

/-- A body holds no line under the parent of the chain. -/
theorem Branch.Renders.body_parent_ne {b : Branch} {old rest : List Line} (h : b.Renders p arm) (hk : Keyed t.lines)
    (ht : t.lines = old ++ (rest ++ b.lines)) (hp : ∀ x, p = some x → ∃ l ∈ old, l.address = x) :
    ∀ k ∈ b.body, k.parent ≠ p := by
  intro k hmem hkp
  obtain ⟨y, hy, hyp⟩ : ∃ y ∈ b.lines, p = some y.address := by
    rcases h.body.mem k hmem with hk' | ⟨x, hx, hk'⟩
    · exact ⟨b.header, by simp [Branch.lines], by rw [← hkp, hk']⟩
    · exact ⟨x, by simp [Branch.lines, hx], by rw [← hkp, hk']⟩
  obtain ⟨l, hl, hla⟩ := hp _ hyp
  have hnodup := hk.nodup
  rw [ht, List.map_append, List.nodup_append] at hnodup
  exact hnodup.2.2 l.address (List.mem_map_of_mem hl) y.address
    (List.mem_map_of_mem (List.mem_append_right _ hy)) hla

/-- Linking the last branch to a new one keeps each branch but the last linked to the next. -/
theorem exits_next {bs bs' : List Branch} {l l' b : Branch}
    (hexits : (bs ++ [l]).map (·.header.exit) = (bs ++ [l]).tail.map (fun b => some b.start.address) ++ [none])
    (hbs : bs'.map (·.header.exit) = bs.map (·.header.exit))
    (hstarts : (bs' ++ [l']).map (fun b => some b.start.address) = (bs ++ [l]).map fun b => some b.start.address)
    (hl : l'.header.exit = some b.start.address) (hb : b.header.exit = none) :
    (bs' ++ [l'] ++ [b]).map (·.header.exit) =
      (bs' ++ [l'] ++ [b]).tail.map (fun b => some b.start.address) ++ [none] := by
  have hinit : bs.map (·.header.exit) = ((bs ++ [l]).map fun b => some b.start.address).tail := by
    rw [List.map_append, List.map_tail] at hexits
    exact (List.append_inj' hexits rfl).1
  have htail : (bs' ++ [l'] ++ [b]).tail = (bs' ++ [l']).tail ++ [b] :=
    List.tail_append_of_ne_nil (by simp)
  rw [htail, List.map_append, List.map_append, List.map_append, List.map_tail, hstarts, hbs, hinit]
  simp [hl, hb]

theorem Store.Chain.next {t' : Store} {init : List Arm} {last : Arm} (hc : Store.Chain p s t (init ++ [last]))
    (hlast : last.method.isBranch = true) (hs : s.Has p) (ht : t.Linked) (hg : t.Grounded) (hp : t.Has p)
    (hh : Heads p t arm h a t') (hb : LowersBody h (t'.linkExit a) u) :
    Store.Chain p s u (init ++ [last] ++ [arm]) := by
  obtain ⟨old, branches, hlines, hold, hrenders, hexits⟩ := hc
  obtain ⟨bs, ls, hbs, hls, rfl⟩ := forall₂_append_left hrenders
  cases hls with
  | @cons _ l _ _ hl hnil =>
    cases hnil
    have hsplit : t.lines = (old ++ (bs.flatMap Branch.lines ++ l.condition.toList)) ++ l.header :: l.body := by
      rw [hlines]
      simp [Branch.lines]
    have hhas : ∀ x, p = some x → ∃ k ∈ old, k.address = x := fun x hx => by
      obtain ⟨k, hk, hka⟩ := hs x hx
      obtain ⟨k', hk', hr⟩ := forall₂_mem_left hold k hk
      exact ⟨k', hk', hr.address.trans hka⟩
    have hsplit' : t.lines = old ++ (bs.flatMap Branch.lines ++ l.lines) := by simp [hlines]
    have hbody := hl.body_parent_ne ht.keyed hsplit' hhas
    obtain ⟨pre', mid', header', b, hu, hpre, hheader, hexit, hmid, hr, hb'⟩ :=
      hh.next_lines hb ht hg hp hsplit hl.parent (hl.method ▸ hlast) hbody
    obtain ⟨old', rest, hold', hrest, rfl⟩ := forall₂_append_left hpre
    obtain ⟨own, cs, hown, hcs, rfl⟩ := forall₂_append_left hrest
    obtain ⟨bs', rfl, hbs'⟩ := branches_of_stays hown
    obtain ⟨c', rfl, hcond⟩ := rel_of_forall₂_toList hcs
    have hl' : (Branch.mk c' header' mid').Renders p last := by
      refine hl.of_kept (rel_kept hcond) hheader ?_
      rw [hheader.address]
      exact hl.body.kept (hmid.imp fun _ _ hr => hr.toKept)
    refine ⟨old', bs' ++ [⟨c', header', mid'⟩] ++ [b], ?_, forall₂_trans Line.Stays.trans hold hold', ?_, ?_⟩
    · rw [hu]
      simp [Branch.lines]
    · refine List.rel_append (List.rel_append ?_ (.cons hl' .nil)) (.cons hr .nil)
      exact forall₂_trans (fun _ _ _ hr hst => hr.stays hst) hbs hbs'
    · refine exits_next hexits (forall₂_map (fun hr => hr.header.exits) hbs') ?_ hexit hb'
      rw [List.map_append, List.map_append, forall₂_map (fun hr => congrArg some hr.start_eq) hbs', List.map_singleton,
        List.map_singleton, Branch.start_address (rel_kept hcond) hheader]

end Chains

/-! ### Lowering the branches -/

/-- The first branch of a chain is lowered. -/
def LowersFirst (p : Option Address) (s : Store) (arm : Arm) (u : Store) : Prop :=
  ∃ h a t, Heads p s arm h a t ∧ LowersBody h t u

/-- A further branch of a chain is lowered, and linked to the branch before it. -/
def LowersNext (p : Option Address) (s : Store) (arm : Arm) (u : Store) : Prop :=
  ∃ h a t, Heads p s arm h a t ∧ LowersBody h (t.linkExit a) u

section Handlers

open LowerM

variable {breaks : Diagnostic → Option Address → Store → Prop} {p : Option Address} {s t : Store}
  {parts : List (Part Store)}

theorem lowerBody_lowersBody (hparts : ∀ part ∈ parts, Sound breaks part.lower) (h : Address)
    (output : Option (List String)) :
    (Part.lowerBody parts h output).Ends t (fun _ u => LowersBody h t u) fun _ _ => True := by
  unfold Part.lowerBody
  split
  · exact Or.inl rfl
  · rename_i body hfind
    refine Ends.bind (ends_modify ?_)
    have hbody := hparts body (List.mem_of_find?_eq_some hfind) (some h) (t.openScope h (output.getD []))
    refine Ends.bind (hbody.mono (fun _ v hv => ?_) fun _ _ _ => trivial)
    exact ends_modify (Or.inr ⟨_, v, hv, rfl⟩)

theorem Heads.of_append {o : Operand} {arm : Arm} {ln : UInt32} {d : Draft} (ho : OperandRead p s o t)
    (hc : o.line.isSome = arm.computed) (hl : arm.source.line = .ok ln) (he : Emits t p arm.method d)
    (hm : arm.method.opensBody = true) (hd : d.service = none) :
    Heads p s arm (t.fresh ln) (o.line.getD (t.fresh ln)) (t.append arm.method ln d).2 := by
  rw [← t.emit_of_unregistered (Or.inl hd)]
  exact .mk ho hc hl he hm

theorem Tree.conditional_eq {t statement : Tree} {tag : String} (h : t.child tag = .ok statement) (m : Method) :
    t.conditional m tag = ⟨m, statement, statement.computesOperand⟩ := by
  rw [Tree.conditional, Tree.child?_of_child h, Option.getD_some]

section Next

variable (hparts : ∀ part ∈ parts, Sound breaks part.lower)

include hparts

theorem lowerElseIf_next (tree : Tree) : (lowerElseIf tree parts p).Ends s
    (fun _ u => LowersNext p s (tree.conditional .elif "elseif_statement") u) fun _ _ => True := by
  unfold lowerElseIf
  refine Ends.bind (ends_liftM_missing (fun statement hst => ?_) fun _ => trivial)
  refine Ends.bind (headerOperand_ends.mono ?_ fun _ _ _ => trivial)
  rintro o t ⟨ho, hc⟩
  refine Ends.bind (ends_liftM_missing (fun ln hl => ?_) fun _ => trivial)
  refine Ends.bind (ends_append (Ends.bind (ends_modify ?_)))
  refine (lowerBody_lowersBody hparts _ _).mono (fun _ u hu => ?_) fun _ _ h => h
  rw [Tree.conditional_eq hst]
  exact ⟨_, _, _, .of_append ho hc hl (.test (Or.inr (Or.inl rfl))) rfl rfl, hu⟩

theorem lowerLastBranch_next {m : Method} (hm : m = .else_ ∨ m = .finally_) (tree : Tree) :
    (lowerLastBranch m tree parts p).Ends s (fun _ u => LowersNext p s { method := m, source := tree } u)
      fun _ _ => True := by
  unfold lowerLastBranch
  refine Ends.bind (ends_liftM_missing (fun ln hl => ?_) fun _ => trivial)
  refine Ends.bind (ends_append (Ends.bind (ends_modify ?_)))
  refine (lowerBody_lowersBody hparts _ _).mono (fun _ u hu => ?_) fun _ _ h => h
  have he : Emits s p m { parent := p } := .bare (by rcases hm with rfl | rfl <;> simp)
  have hopens : m.opensBody = true := by rcases hm with rfl | rfl <;> rfl
  have ho : OperandRead p s ⟨[], none⟩ s := .plain
  exact ⟨_, _, _, .of_append ho rfl hl he hopens rfl, hu⟩

theorem lowerCatch_next (tree : Tree) : (lowerCatch tree parts p).Ends s
    (fun _ u => LowersNext p s { method := .catch_, source := (tree.child? "catch_statement").getD tree } u)
      fun _ _ => True := by
  unfold lowerCatch
  refine Ends.bind (ends_liftM_missing (fun statement hst => ?_) fun _ => trivial)
  refine Ends.bind (ends_liftM_missing (fun ln hl => ?_) fun _ => trivial)
  refine Ends.bind (ends_append (Ends.bind (ends_modify ?_)))
  refine (lowerBody_lowersBody hparts _ _).mono (fun _ u hu => ?_) fun _ _ h => h
  rw [Tree.child?_of_child hst, Option.getD_some]
  have ho : OperandRead p s ⟨[], none⟩ s := .plain
  exact ⟨_, _, _, .of_append ho rfl hl .rescue rfl rfl, hu⟩

end Next

/-! ### Whole chains -/

/-- From `s` a chain under `p` has been lowered so far. -/
structure Store.Chained (p : Option Address) (s t : Store) (arms : List Arm) : Prop where
  lowers : Lowers p s .done t
  chain : Store.Chain p s t arms

variable {arms : List Arm}

theorem Store.Chained.first {arm : Arm} (hl : Lowers p s .done t) (hf : LowersFirst p s arm t) (hs : s.Linked)
    (hg : s.Grounded) (hp : s.Has p) : Store.Chained p s t [arm] := by
  obtain ⟨h, a, t', hheads, hbody⟩ := hf
  exact ⟨hl, hheads.chain hbody hs hg hp⟩

theorem Store.Chained.next {arm : Arm} {u : Store} (hc : Store.Chained p s t arms) (hne : arms ≠ [])
    (harms : ∀ x ∈ arms, x.method.isBranch = true) (hs : s.Linked) (hg : s.Grounded) (hp : s.Has p)
    (hl : Lowers p t .done u) (hn : LowersNext p t arm u) : Store.Chained p s u (arms ++ [arm]) := by
  obtain ⟨h, a, t', hheads, hbody⟩ := hn
  obtain ⟨init, last, rfl⟩ : ∃ init last, arms = init ++ [last] :=
    ⟨arms.dropLast, arms.getLast hne, (List.dropLast_append_getLast hne).symm⟩
  have hst := hc.lowers.grows hs hg hp
  exact ⟨hc.lowers.andThen hl, hc.chain.next (harms last (by simp)) hp (hc.lowers.linked hs) (hst.grounded hg hp)
    (hst.has hp) hheads hbody⟩

/-- Trees with this tag are lowered to branches that continue a chain, as `arm` gives them. -/
def Continues (tag : String) (arm : Tree → Arm) : Prop :=
  ∀ (e : Tree), e.tag = tag → ∀ p t,
    (e.lower p).Ends t (fun _ u => Lowers p t .done u ∧ LowersNext p t (arm e) u) fun _ _ => True

theorem Tree.parts_sound (t : Tree) : ∀ part ∈ t.subtrees.map (fun c => (⟨c, c.lower⟩ : Part Store)),
    Sound (fun d _ _ => d.Listed) part.lower := by
  intro part hpart
  obtain ⟨c, -, rfl⟩ := List.mem_map.mp hpart
  exact c.lower_sound

theorem continues_of_next {tag : String} {arm : Tree → Arm}
    (h : ∀ (e : Tree), e.tag = tag → ∀ p t, (e.lower p).Ends t (fun _ u => LowersNext p t (arm e) u) fun _ _ => True) :
    Continues tag arm :=
  fun e he p t => ((e.lower_sound p t).and (h e he p t)).mono (fun _ _ hu => hu) fun _ _ _ => trivial

theorem continues_elseIf : Continues "elseif_block" (Tree.conditional .elif "elseif_statement") :=
  continues_of_next fun e he p t => by
    rw [e.lower_eq, statement, he]
    exact lowerElseIf_next e.parts_sound e

theorem continues_else : Continues "else_block" fun last => { method := .else_, source := last } :=
  continues_of_next fun e he p t => by
    rw [e.lower_eq, statement, he]
    exact lowerLastBranch_next e.parts_sound (Or.inl rfl) e

theorem continues_catch :
    Continues "catch_block" fun c => { method := .catch_, source := (c.child? "catch_statement").getD c } :=
  continues_of_next fun e he p t => by
    rw [e.lower_eq, statement, he]
    exact lowerCatch_next e.parts_sound e

theorem continues_finally : Continues "finally_block" fun last => { method := .finally_, source := last } :=
  continues_of_next fun e he p t => by
    rw [e.lower_eq, statement, he]
    exact lowerLastBranch_next e.parts_sound (Or.inr rfl) e

section Rows

variable {tag : String} {arm : Tree → Arm} (hn : Continues tag arm) (hs : s.Linked) (hg : s.Grounded) (hp : s.Has p)

include hn hs hg hp

theorem lowerFirst_chained (tree : Tree) (hc : Store.Chained p s t arms) (hne : arms ≠ [])
    (harms : ∀ x ∈ arms, x.method.isBranch = true) :
    (Part.lowerFirst (tree.subtrees.map fun c => ⟨c, c.lower⟩) tag p).Ends t
      (fun _ u => Store.Chained p s u (arms ++ (tree.child? tag).toList.map arm)) fun _ _ => True := by
  have hfind : (tree.subtrees.map fun c => (⟨c, c.lower⟩ : Part Store)).find? (·.tree.tag == tag) =
      (tree.child? tag).map fun c => ⟨c, c.lower⟩ := List.find?_map
  unfold Part.lowerFirst
  rw [hfind]
  cases hchild : tree.child? tag with
  | none =>
    refine ends_pure ?_
    rwa [Option.toList_none, List.map_nil, List.append_nil]
  | some e =>
    have he : e.tag = tag := beq_iff_eq.mp (List.find?_some (p := fun c : Tree => c.tag == tag) hchild)
    exact (hn e he p t).mono (fun _ u hu => hc.next hne harms hs hg hp hu.1 hu.2) fun _ _ h => h

theorem lowerAll_chained (hbranch : ∀ e, (arm e).method.isBranch = true) (es : List Tree) (hes : ∀ e ∈ es, e.tag = tag)
    (hc : Store.Chained p s t arms) (hne : arms ≠ []) (harms : ∀ x ∈ arms, x.method.isBranch = true) :
    (Part.lowerAll (es.map fun c => ⟨c, c.lower⟩) p).Ends t (fun _ u => Store.Chained p s u (arms ++ es.map arm))
      fun _ _ => True := by
  induction es generalizing t arms with
  | nil =>
    refine ends_pure ?_
    rwa [List.map_nil, List.append_nil]
  | cons e es ih =>
    refine Ends.bind ((hn e (hes e List.mem_cons_self) p t).mono (fun _ u hu => ?_) fun _ _ h => h)
    have hnext := hc.next hne harms hs hg hp hu.1 hu.2
    have hrest := ih (fun x hx => hes x (List.mem_cons_of_mem _ hx)) hnext (by simp)
      (List.forall_mem_append.mpr ⟨harms, List.forall_mem_singleton.mpr (hbranch e)⟩)
    rw [List.append_assoc] at hrest
    exact hrest

end Rows

theorem lowerIf_chained (tree : Tree) (hs : s.Linked) (hg : s.Grounded) (hp : s.Has p) :
    (lowerIf tree (tree.subtrees.map fun c => ⟨c, c.lower⟩) p).Ends s
      (fun _ u => Store.Chained p s u tree.ifArms) fun _ _ => True := by
  have hparts := tree.parts_sound
  unfold lowerIf
  refine Ends.bind (ends_liftM_missing (fun statement hst => ?_) fun _ => trivial)
  refine Ends.bind (headerOperand_ends.mono ?_ fun _ _ _ => trivial)
  rintro o t ⟨ho, hcomputed⟩
  refine Ends.bind (ends_liftM_missing (fun ln hl => ?_) fun _ => trivial)
  refine Ends.bind (ends_append ?_)
  have he : Emits t p .if_ { args := some o.args, parent := p } := .test (Or.inl rfl)
  have hopens := opens_append he (Or.inl rfl) ln rfl
  have hbody := (lowerBody_ends hparts (operandRead_lowers ho) hopens fun _ => rfl).and
    (lowerBody_lowersBody hparts _ none)
  refine Ends.bind (hbody.mono (fun _ u hu => ?_) fun _ _ _ => trivial)
  have hfirst : Store.Chained p s u [tree.conditional .if_ "if_statement"] := by
    refine .first hu.1 ?_ hs hg hp
    rw [Tree.conditional_eq hst]
    exact ⟨_, _, _, .of_append ho hcomputed hl he rfl rfl, hu.2⟩
  have hif : ∀ x ∈ [tree.conditional .if_ "if_statement"], x.method.isBranch = true :=
    List.forall_mem_singleton.mpr rfl
  have helseIfs := lowerAll_chained continues_elseIf hs hg hp (fun _ => rfl) (tree.childrenTagged "elseif_block")
    (fun e he => beq_iff_eq.mp (List.mem_filter.mp he).2) hfirst (by simp) hif
  have hfilter : (tree.subtrees.map fun c => (⟨c, c.lower⟩ : Part Store)).filter (·.tree.tag == "elseif_block") =
      (tree.childrenTagged "elseif_block").map fun c => ⟨c, c.lower⟩ := List.filter_map
  unfold Part.lowerTagged
  rw [hfilter]
  refine Ends.bind (helseIfs.mono (fun _ v hv => ?_) fun _ _ h => h)
  refine (lowerFirst_chained continues_else hs hg hp tree hv (by simp) ?_).mono (fun _ w hw => ?_) fun _ _ h => h
  · exact List.forall_mem_append.mpr ⟨hif, List.forall_mem_map.mpr fun _ _ => rfl⟩
  · rw [List.append_assoc] at hw
    exact hw

theorem lowerTry_chained (tree : Tree) (hs : s.Linked) (hg : s.Grounded) (hp : s.Has p) :
    (lowerTry tree (tree.subtrees.map fun c => ⟨c, c.lower⟩) p).Ends s
      (fun _ u => Store.Chained p s u tree.tryArms) fun _ _ => True := by
  have hparts := tree.parts_sound
  unfold lowerTry
  refine Ends.bind (ends_liftM_missing (fun ln hl => ?_) fun _ => trivial)
  refine Ends.bind (ends_append ?_)
  have he : Emits s p .try_ { parent := p } := .bare (Or.inr (Or.inl rfl))
  have hopens := opens_append he (Or.inl rfl) ln rfl
  have hbody := (lowerBody_ends hparts .skip hopens fun _ => rfl).and (lowerBody_lowersBody hparts _ none)
  refine Ends.bind (hbody.mono (fun _ u hu => ?_) fun _ _ _ => trivial)
  have ho : OperandRead p s ⟨[], none⟩ s := .plain
  have hfirst : Store.Chained p s u [{ method := .try_, source := tree }] :=
    .first hu.1 ⟨_, _, _, .of_append ho rfl hl he rfl rfl, hu.2⟩ hs hg hp
  have htry : ∀ x ∈ [({ method := .try_, source := tree } : Arm)], x.method.isBranch = true :=
    List.forall_mem_singleton.mpr rfl
  refine Ends.bind ((lowerFirst_chained continues_catch hs hg hp tree hfirst (by simp) htry).mono (fun _ v hv => ?_)
    fun _ _ h => h)
  refine (lowerFirst_chained continues_finally hs hg hp tree hv (by simp) ?_).mono (fun _ w hw => ?_) fun _ _ h => h
  · exact List.forall_mem_append.mpr ⟨htry, List.forall_mem_map.mpr fun _ _ => rfl⟩
  · rw [List.append_assoc] at hw
    exact hw

end Handlers

/-- In any store that a session reaches and whose parents all name lines, an `if` or a `try` that is lowered
    under a parent appends its branches in a row under it, each left for the start of the next. -/
theorem lower_chain {t : Tree} {p : Option Address} {s u : Store} {x : Unit} (hs : s.Reachable) (hg : s.Grounded)
    (hp : s.Has p) (h : t.lower p s = .ok x u) :
    (t.tag = "if_block" → Store.Chain p s u t.ifArms) ∧ (t.tag = "try_block" → Store.Chain p s u t.tryArms) := by
  rw [t.lower_eq] at h
  constructor
  · intro ht
    rw [LowerM.statement, ht] at h
    exact ((lowerIf_chained t hs.linked hg hp).of_ok h).chain
  · intro ht
    rw [LowerM.statement, ht] at h
    exact ((lowerTry_chained t hs.linked hg hp).of_ok h).chain

theorem LowerM.ok_of_isSome {m : LowerM Store Unit} {s : Store} (h : (m.run' s).isSome = true) : ∃ u, m s = .ok () u := by
  unfold EStateM.run' EStateM.run at h
  cases hm : m s with
  | ok x u => exact ⟨u, rfl⟩
  | error d u =>
    rw [hm] at h
    cases h

/-- Both chains are lowered in the body of a function that a session has declared. -/
theorem lower_chain_declaration :
    ∃ s u v, s.Reachable ∧ s.Grounded ∧ s.Has (some ⟨"1"⟩) ∧
      Sample.branches.lower (some ⟨"1"⟩) s = .ok () u ∧ Store.Chain (some ⟨"1"⟩) s u Sample.branches.ifArms ∧
      Sample.rescue.lower (some ⟨"1"⟩) s = .ok () v ∧ Store.Chain (some ⟨"1"⟩) s v Sample.rescue.tryArms := by
  let steps : List Step := [.lower ⟨"start", [Sample.declaration]⟩ none]
  have hs : (Step.runAll {} steps).2.Reachable := ⟨steps, rfl⟩
  have hg : (Step.runAll {} steps).2.Grounded :=
    (Tree.lower_sound ⟨"start", [Sample.declaration]⟩).grounded none Store.linked_empty Store.grounded_empty
      (Store.has_none _)
  have hp : (Step.runAll {} steps).2.Has (some ⟨"1"⟩) := Store.has_of_any (by decide +kernel)
  obtain ⟨u, hu⟩ := LowerM.ok_of_isSome (m := Sample.branches.lower (some ⟨"1"⟩)) (s := (Step.runAll {} steps).2)
    (by decide +kernel)
  obtain ⟨v, hv⟩ := LowerM.ok_of_isSome (m := Sample.rescue.lower (some ⟨"1"⟩)) (s := (Step.runAll {} steps).2)
    (by decide +kernel)
  exact ⟨_, u, v, hs, hg, hp, hu, (lower_chain hs hg hp hu).1 rfl, hv, (lower_chain hs hg hp hv).2 rfl⟩

end Flowline
