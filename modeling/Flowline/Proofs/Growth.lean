import Flowline.Proofs.Lowers

/-! What statements under a parent leave alone. The lines that were there stay where they are and keep what
    they hold; only the parent may get entered, only branches under the parent may get a way out, and only
    a service call or a mutation may get more operands. Each new line stands under the parent or under a
    new line before it. -/

namespace Flowline

/-! ### Lines that are kept -/

/-- A line from before, after statements under `p`. -/
structure Line.Kept (p : Option Address) (l l' : Line) : Prop where
  rest : l' = { l with args := l'.args, enter := l'.enter, exit := l'.exit, next := l'.next }
  args : l.method ≠ .execute → l.method ≠ .mutation → l'.args = l.args
  enter : l'.enter = l.enter ∨ l.enter = none ∧ p = some l.address
  exit : l'.exit = l.exit ∨ l.method.isBranch = true ∧ l.parent = p

namespace Line.Kept

variable {p : Option Address} {l l' l'' : Line}

theorem address (h : l.Kept p l') : l'.address = l.address := by rw [h.rest]
theorem method (h : l.Kept p l') : l'.method = l.method := by rw [h.rest]
theorem sourceLine (h : l.Kept p l') : l'.sourceLine = l.sourceLine := by rw [h.rest]
theorem name (h : l.Kept p l') : l'.name = l.name := by rw [h.rest]
theorem output (h : l.Kept p l') : l'.output = l.output := by rw [h.rest]
theorem parent (h : l.Kept p l') : l'.parent = l.parent := by rw [h.rest]

theorem refl (l : Line) : l.Kept p l := ⟨rfl, fun _ _ => rfl, Or.inl rfl, Or.inl rfl⟩

theorem trans (x y z : Line) (h : x.Kept p y) (h' : y.Kept p z) : x.Kept p z where
  rest := by rw [h'.rest, h.rest]
  args he hm := by
    rw [h'.args (h.method ▸ he) (h.method ▸ hm), h.args he hm]
  enter := by
    rcases h'.enter with he' | ⟨he', hp'⟩
    · rw [he']
      exact h.enter
    · rcases h.enter with he | he
      · exact Or.inr ⟨he ▸ he', h.address ▸ hp'⟩
      · exact Or.inr he
  exit := by
    rcases h'.exit with he' | ⟨hb', hp'⟩
    · rw [he']
      exact h.exit
    · exact Or.inr ⟨h.method ▸ hb', h.parent ▸ hp'⟩

/-- A line that is neither the other parent nor under it is kept under any parent. -/
theorem weaken {q : Option Address} (h : l.Kept q l') (ha : q ≠ some l.address) (hp : l.parent ≠ q) : l.Kept p l' where
  rest := h.rest
  args := h.args
  enter := h.enter.imp_right fun he => absurd he.2 ha
  exit := h.exit.imp_right fun he => absurd he.2 hp

theorem of_touched {a : Address} (h : Store.Touched p a l l') : l.Kept p l' where
  rest := by rw [h.rest]
  args _ _ := by rw [h.rest]
  enter := h.enter_cases.imp_right fun he => ⟨he.2.1, he.2.2⟩
  exit := Or.inl (by rw [h.rest])

end Line.Kept

/-- Each of the lines stands under `p` or under a line before it. -/
inductive Below (p : Option Address) : List Line → Prop
  | nil : Below p []
  | concat {ls : List Line} {l : Line} (h : Below p ls) (hl : l.parent = p ∨ ∃ k ∈ ls, l.parent = some k.address) :
      Below p (ls ++ [l])

namespace Below

variable {p : Option Address} {xs ys : List Line}

theorem append (hx : Below p xs) (hy : Below p ys) : Below p (xs ++ ys) := by
  induction hy with
  | nil => rwa [List.append_nil]
  | concat _ hl ih =>
    rw [← List.append_assoc]
    refine ih.concat (hl.imp_right ?_)
    rintro ⟨k, hk, he⟩
    exact ⟨k, List.mem_append_right _ hk, he⟩

theorem singleton {l : Line} (h : l.parent = p) : Below p [l] := .concat .nil (Or.inl h)

theorem cons {l : Line} (hl : l.parent = p) (h : Below (some l.address) xs) : Below p (l :: xs) := by
  induction h with
  | nil => exact singleton hl
  | @concat ls k _ hk ih =>
    refine ih.concat (Or.inr ?_)
    rcases hk with hk | ⟨x, hx, hk⟩
    · exact ⟨l, List.mem_cons_self, hk⟩
    · exact ⟨x, List.mem_cons_of_mem _ hx, hk⟩

theorem of_forall₂ {R : Line → Line → Prop}
    (hR : ∀ {l l'}, R l l' → l'.address = l.address ∧ l'.parent = l.parent) (h : Below p xs)
    (hs : List.Forall₂ R xs ys) : Below p ys := by
  induction h generalizing ys with
  | nil =>
    cases hs
    exact .nil
  | @concat ls l _ hl ih =>
    obtain ⟨zs, ws, hzs, hws, rfl⟩ := forall₂_append_left hs
    cases hws with
    | cons hr hnil =>
      cases hnil
      refine (ih hzs).concat ?_
      rw [(hR hr).2]
      refine hl.imp_right ?_
      rintro ⟨k, hk, he⟩
      obtain ⟨k', hk', hr'⟩ := forall₂_mem_left hzs k hk
      exact ⟨k', hk', by rw [(hR hr').1, he]⟩

theorem kept {q : Option Address} (h : Below p xs) (hs : List.Forall₂ (Line.Kept q) xs ys) : Below p ys :=
  h.of_forall₂ (fun hr => ⟨hr.address, hr.parent⟩) hs

/-- The first of the lines stands under `p`. -/
theorem head {l : Line} (h : Below p (l :: xs)) : l.parent = p := by
  generalize hls : l :: xs = ls at h
  induction h generalizing xs with
  | nil => cases hls
  | @concat ls k _ hk ih =>
    cases ls with
    | nil =>
      obtain ⟨rfl, -⟩ := List.cons.inj hls
      exact hk.resolve_right (by simp)
    | cons x ls =>
      obtain ⟨rfl, -⟩ := List.cons.inj hls
      exact ih rfl

theorem mem (h : Below p xs) : ∀ l ∈ xs, l.parent = p ∨ ∃ k ∈ xs, l.parent = some k.address := by
  induction h with
  | nil => intro l hl; cases hl
  | concat _ hl ih =>
    intro x hx
    rcases List.mem_append.mp hx with hx | hx
    · refine (ih x hx).imp_right ?_
      rintro ⟨k, hk, he⟩
      exact ⟨k, List.mem_append_left _ hk, he⟩
    · rw [List.mem_singleton.mp hx]
      refine hl.imp_right ?_
      rintro ⟨k, hk, he⟩
      exact ⟨k, List.mem_append_left _ hk, he⟩

end Below

/-! ### Stores that grow -/

namespace Store

/-- A parent names a line of the store, or is the top level. -/
def Has (s : Store) (p : Option Address) : Prop :=
  ∀ a, p = some a → ∃ l ∈ s.lines, l.address = a

/-- Every parent names a line. -/
def Grounded (s : Store) : Prop :=
  ∀ l ∈ s.lines, s.Has l.parent

/-- The lines that statements under `p` lead from and to. -/
def Grows (p : Option Address) (s t : Store) : Prop :=
  ∃ old new, t.lines = old ++ new ∧ List.Forall₂ (Line.Kept p) s.lines old ∧ Below p new

theorem has_none (s : Store) : s.Has none := fun _ h => by cases h

theorem has_of_any {s : Store} {a : Address} (h : s.lines.any (·.address == a) = true) : s.Has (some a) := by
  intro b hb
  obtain ⟨l, hl, hla⟩ := List.any_eq_true.mp h
  exact ⟨l, hl, (beq_iff_eq.mp hla).trans (Option.some.inj hb)⟩

theorem linked_empty : ({} : Store).Linked where
  keyed _ _ h := by simp at h
  followed := trivial
  entered _ h := by cases h
  exited := trivial

theorem grounded_empty : ({} : Store).Grounded := fun _ h => by cases h

variable {p : Option Address} {s t u : Store}

theorem Grows.of_kept (h : List.Forall₂ (Line.Kept p) s.lines t.lines) : Grows p s t :=
  ⟨t.lines, [], (List.append_nil _).symm, h, .nil⟩

theorem Grows.of_lines (h : t.lines = s.lines) : Grows p s t :=
  .of_kept (h ▸ List.forall₂_same.mpr fun l _ => Line.Kept.refl l)

theorem Grows.trans (h : Grows p s t) (h' : Grows p t u) : Grows p s u := by
  obtain ⟨old, new, ht, hold, hnew⟩ := h
  obtain ⟨old', new', hu, hold', hnew'⟩ := h'
  rw [ht] at hold'
  obtain ⟨ys, zs, hys, hzs, rfl⟩ := forall₂_append_left hold'
  refine ⟨ys, zs ++ new', by rw [hu, List.append_assoc], forall₂_trans Line.Kept.trans hold hys, ?_⟩
  exact (hnew.kept hzs).append hnew'

theorem Grows.has {q : Option Address} (h : Grows p s t) (hq : s.Has q) : t.Has q := by
  obtain ⟨old, new, ht, hold, -⟩ := h
  intro a ha
  obtain ⟨l, hl, hla⟩ := hq a ha
  obtain ⟨l', hl', hr⟩ := forall₂_mem_left hold l hl
  exact ⟨l', by rw [ht]; exact List.mem_append_left _ hl', by rw [hr.address, hla]⟩

theorem Grows.grounded (h : Grows p s t) (hs : s.Grounded) (hp : s.Has p) : t.Grounded := by
  have htp := h.has hp
  have hts : ∀ l ∈ s.lines, t.Has l.parent := fun l hl => h.has (hs l hl)
  obtain ⟨old, new, ht, hold, hnew⟩ := h
  intro l hl
  rw [ht] at hl
  rcases List.mem_append.mp hl with hl | hl
  · obtain ⟨k, hk, hr⟩ := forall₂_mem_right hold l hl
    rw [hr.parent]
    exact hts k hk
  · rcases hnew.mem l hl with hlp | ⟨k, hk, hlk⟩
    · rw [hlp]
      exact htp
    · intro a ha
      rw [hlk, Option.some.injEq] at ha
      exact ⟨k, by rw [ht]; exact List.mem_append_right _ hk, ha⟩

theorem kept_linkedTo (s : Store) (p : Option Address) (a : Address) :
    List.Forall₂ (Line.Kept p) s.lines (s.linkedTo p a) :=
  (touched_linkedTo s p a).imp fun _ _ => Line.Kept.of_touched

theorem Grows.concat {k : Line} {a : Address} (hl : t.lines = s.linkedTo p a ++ [k]) (hk : k.parent = p) :
    Grows p s t :=
  ⟨_, _, hl, s.kept_linkedTo p a, .singleton hk⟩

theorem Grows.emit {m : Method} {ln : UInt32} {d : Draft} (hd : d.parent = p) : Grows p s (s.emit m ln d) :=
  .concat (hd ▸ s.emit_lines m ln d) hd

theorem nameLast_emit_lines (s : Store) (m : Method) (ln : UInt32) (d : Draft) (path : List Segment) :
    ((s.emit m ln d).nameLast path).lines =
      s.linkedTo d.parent (s.fresh ln) ++ [{ s.newLine m ln d with name := some path }] := by
  simp only [nameLast, emit_lines, Line.updateLast_concat]

theorem Grows.copyLine {a : Address} {ln : UInt32} : Grows p s (s.copyLine a ln p).2 := by
  rcases s.copyLine_cases a ln p with ⟨-, heq⟩ | ⟨line, -, heq⟩ <;> rw [heq]
  · exact .of_lines rfl
  · exact .concat rfl rfl

/-- Only the line at the address gets more operands, and it is a service call or a mutation. -/
theorem kept_addArgsToLast {m : Method} {more : List Value} (hs : Keyed s.lines) (hm : m = .execute ∨ m = .mutation) :
    List.Forall₂ (Line.Kept p) s.lines (s.addArgsToLast m more).2.lines := by
  have hsame : List.Forall₂ (Line.Kept p) s.lines s.lines := List.forall₂_same.mpr fun l _ => Line.Kept.refl l
  rcases s.addArgsToLast_cases m more with heq | ⟨a, -, heq⟩ <;> rw [heq]
  · exact hsame
  rcases s.addArgs_cases a m more with heq | ⟨line, hline, hmethod, heq⟩ <;> rw [heq]
  · exact hsame
  refine List.forall₂_map_right_iff.mpr (List.forall₂_same.mpr fun l hl => ?_)
  split
  · rename_i ha
    have hlm : l.method = m := by
      obtain ⟨hmem, hla⟩ := s.line?_eq_some hline
      rw [eq_of_address hs hl hmem (ha.trans hla.symm), hmethod]
    refine ⟨rfl, fun he hmu => ?_, Or.inl rfl, Or.inl rfl⟩
    rcases hm with rfl | rfl
    · exact absurd hlm he
    · exact absurd hlm hmu
  · exact Line.Kept.refl l

/-- The line that a branch gets as its way out has the parent of the branch, and the last line is none of
    the branches before it. -/
theorem linkExit_kept {a : Address} {init : List Line} {k : Line} (hs : Keyed s.lines) (hl : s.lines = init ++ [k])
    (ha : ∃ l ∈ s.lines, l.address = a ∧ l.parent = p) :
    ∃ init', (s.linkExit a).lines = init' ++ [k] ∧ List.Forall₂ (Line.Kept p) init init' := by
  rcases s.linkExit_cases a with heq | ⟨pre, b, mid, target, post, hsplit, htarget, hb, hbranch, -, heq⟩
  · exact ⟨init, by rw [heq, hl], List.forall₂_same.mpr fun l _ => Line.Kept.refl l⟩
  · obtain ⟨tail, last, htail⟩ : ∃ tail last, target :: post = tail ++ [last] :=
      (List.eq_nil_or_concat (target :: post)).elim (fun h => by cases h) fun ⟨tail, last, h⟩ => ⟨tail, last, by
        rw [h, List.concat_eq_append]⟩
    have hsame : init ++ [k] = (pre ++ b :: (mid ++ tail)) ++ [last] := by
      rw [← hl, hsplit, htail]
      simp
    obtain ⟨rfl, hlast⟩ := List.append_inj' hsame rfl
    have htp : target.parent = p := by
      obtain ⟨l, hmem, hla, hlp⟩ := ha
      have hmem' : target ∈ s.lines := by simp [hsplit]
      rw [eq_of_address hs hmem' hmem (htarget.trans hla.symm), hlp]
    refine ⟨pre ++ { b with exit := some a } :: (mid ++ tail), by rw [heq, htail, hlast]; simp, ?_⟩
    have hrefl : ∀ ls : List Line, List.Forall₂ (Line.Kept p) ls ls := fun _ => List.forall₂_same.mpr fun l _ => .refl l
    refine List.rel_append (hrefl pre) (.cons ?_ (hrefl _))
    exact ⟨rfl, fun _ _ => rfl, Or.inl rfl, Or.inr ⟨hbranch, by rw [hb, htp]⟩⟩

theorem fresh_ne (hs : s.Linked) (ln : UInt32) : ∀ l ∈ s.lines, l.address ≠ s.fresh ln := by
  intro l hl ha
  have hnodup := (hs.append .set_ ln {}).keyed.nodup
  rw [append_lines, List.map_append, forall₂_map (fun hr => by rw [hr.rest]) (touched_linkedTo s none (s.fresh ln)),
    List.nodup_append] at hnodup
  exact hnodup.2.2 l.address (List.mem_map_of_mem hl) (s.fresh ln) (by simp) ha

end Store

/-! ### Headers and their bodies -/

theorem Store.declareFunction_lines (s : Store) (name : String) (a : Address) :
    (s.declareFunction name a).2.lines = s.lines := by
  unfold declareFunction
  split <;> rfl

theorem Store.declareFunction_scopes (s : Store) (name : String) (a : Address) :
    (s.declareFunction name a).2.scopes = s.scopes := by
  unfold declareFunction
  split <;> rfl

theorem Store.Linked.emit {s : Store} (hs : s.Linked) (m : Method) (ln : UInt32) (d : Draft) : (s.emit m ln d).Linked :=
  (hs.of_lines (s.registerFor_lines m d.service)).append m ln d

namespace Opens

variable {p : Option Address} {s t u : Store} {h : Address} {names : List String}

theorem keeps_linked (ho : Opens p s h names t) (hs : s.Linked) : t.Linked := by
  cases ho with
  | plain => exact hs.emit _ _ _
  | linked => exact (hs.emit _ _ _).linkExit _
  | declared hn =>
    exact (hs.emit _ _ _).of_lines (Store.declareFunction_lines _ _ _)

/-- The header is the last line, and what it binds is read from it. -/
theorem concat (ho : Opens p s h names t) (hs : s.Linked) :
    ∃ old m ln d, t.lines = old ++ [s.newLine m ln d] ∧ List.Forall₂ (Line.Kept p) s.lines old ∧ h = s.fresh ln ∧
      d.parent = p ∧ m.opensBody = true ∧ names = (s.newLine m ln d).boundNames := by
  have hkept := fun ln => s.kept_linkedTo p (s.fresh ln)
  have hbound : ∀ {m ln d}, Emits s p m d → d.output.getD [] = (s.newLine m ln d).boundNames := fun he =>
    (if_neg he.ne_function).symm
  cases ho with
  | @plain m ln d he hm =>
    have hl := s.emit_lines m ln d
    rw [he.parent] at hl
    exact ⟨_, m, ln, d, hl, hkept ln, rfl, he.parent, hm, hbound he⟩
  | @linked m ln d a he hm ha =>
    have hl := s.emit_lines m ln d
    rw [he.parent] at hl
    obtain ⟨old, hold, hk⟩ := Store.linkExit_kept (hs.emit m ln d).keyed hl ha
    exact ⟨old, m, ln, d, hold, forall₂_trans Line.Kept.trans (hkept ln) hk, rfl, he.parent, hm, hbound he⟩
  | @declared ln name parameters returns hn =>
    refine ⟨s.linkedTo p (s.fresh ln), .function, ln, .declaration name parameters returns p, ?_, hkept ln, rfl, rfl,
      rfl, ?_⟩
    · rw [Store.declareFunction_lines, s.emit_lines]
      rfl
    · simp [Line.boundNames, Store.newLine, Draft.line, Draft.declaration, List.filterMap_map, Function.comp_def,
        Value.argumentName?]

theorem grows (ho : Opens p s h names t) (hs : s.Linked) : Store.Grows p s t := by
  obtain ⟨old, m, ln, d, ht, hold, -, hd, -, -⟩ := ho.concat hs
  exact ⟨old, _, ht, hold, .singleton hd⟩

theorem has (ho : Opens p s h names t) (hs : s.Linked) : t.Has (some h) := by
  obtain ⟨old, m, ln, d, ht, -, rfl, -, -, -⟩ := ho.concat hs
  intro a ha
  exact ⟨s.newLine m ln d, by simp [ht], Option.some.inj ha⟩

theorem childless (ho : Opens p s h names t) (hs : s.Linked) (hg : s.Grounded) (hp : s.Has p) :
    ∀ l ∈ t.lines, l.parent ≠ some h := by
  obtain ⟨old, m, ln, d, ht, hold, rfl, hd, -, -⟩ := ho.concat hs
  intro l hl hpl
  rw [ht] at hl
  have hbefore : s.Has l.parent := by
    rcases List.mem_append.mp hl with hl | hl
    · obtain ⟨k, hk, hr⟩ := forall₂_mem_right hold l hl
      rw [hr.parent]
      exact hg k hk
    · rw [List.mem_singleton.mp hl, Store.newLine_parent, hd]
      exact hp
  obtain ⟨k, hk, hka⟩ := hbefore _ hpl
  exact Store.fresh_ne hs ln k hk hka

/-- A body leaves alone what stood before its header: no line from before is the header or under it. -/
theorem grows_body (ho : Opens p s h names t) (hs : s.Linked) (hg : s.Grounded) (hbody : Store.Grows (some h) t u) :
    Store.Grows p s u := by
  obtain ⟨old, m, ln, d, ht, hold, rfl, hd, -, -⟩ := ho.concat hs
  obtain ⟨old', new, hu, hold', hnew⟩ := hbody
  rw [ht] at hold'
  obtain ⟨ys, zs, hys, hzs, rfl⟩ := forall₂_append_left hold'
  have hkeep : List.Forall₂ (Line.Kept p) old ys := by
    refine forall₂_imp_mem hys fun x hx y hxy => ?_
    obtain ⟨l, hl, hr⟩ := forall₂_mem_right hold x hx
    refine hxy.weaken (fun hax => ?_) fun hpx => ?_
    · exact Store.fresh_ne hs ln l hl (by rw [← hr.address, Option.some.inj hax])
    · obtain ⟨k, hk, hka⟩ := hg l hl _ (hr.parent.symm.trans hpx)
      exact Store.fresh_ne hs ln k hk hka
  cases hzs with
  | @cons _ k _ _ hk hnil =>
    cases hnil
    refine ⟨ys, k :: new, by rw [hu, List.append_assoc]; rfl, forall₂_trans Line.Kept.trans hold hkeep, ?_⟩
    refine .cons (hk.parent.trans hd) ?_
    rw [hk.address]
    exact hnew

end Opens

/-! ### Whole derivations -/

namespace Lowers

variable {p : Option Address} {s t : Store} {o : Outcome}

theorem linked (h : Lowers p s o t) (hs : s.Linked) : t.Linked := by
  induction h with
  | skip | stop => exact hs
  | andThen _ _ ih ih' => exact ih' (ih hs)
  | imports => exact hs.of_lines rfl
  | continues => exact hs.of_sameLinks (Store.sameLinks_addArgsToLast _ _ _)
  | line => exact hs.emit _ _ _
  | named => exact (hs.emit _ _ _).nameLast _
  | redeclared => exact hs.emit _ _ _
  | header ho => exact ho.keeps_linked hs
  | block ho _ _ ih | inside ho _ _ ih => exact (ih ((ho.keeps_linked hs).of_lines rfl)).of_lines rfl
  | loop _ _ _ _ _ ho _ ih => exact ((ih ((ho.keeps_linked hs).of_lines rfl)).copyLine _ _ _).of_lines rfl

theorem grows (h : Lowers p s o t) (hs : s.Linked) (hg : s.Grounded) (hp : s.Has p) : Store.Grows p s t := by
  induction h with
  | skip | stop => exact .of_lines rfl
  | andThen h _ ih ih' =>
    have hst := ih hs hg hp
    exact hst.trans (ih' (h.linked hs) (hst.grounded hg hp) (hst.has hp))
  | imports => exact .of_lines rfl
  | continues hm => exact .of_kept (Store.kept_addArgsToLast hs.keyed hm)
  | line he => exact .emit he.parent
  | @named p s m ln d path he _ => exact .concat (he.parent ▸ s.nameLast_emit_lines m ln d path) he.parent
  | redeclared => exact .emit rfl
  | header ho => exact ho.grows hs
  | block ho _ _ ih | inside ho _ _ ih =>
    refine ho.grows_body hs hg (.trans ?_ (.of_lines rfl))
    exact ih ((ho.keeps_linked hs).of_lines rfl) ((ho.grows hs).grounded hg hp) (ho.has hs)
  | loop _ _ _ _ _ ho _ ih =>
    refine ho.grows_body hs hg (.trans ?_ (.trans .copyLine (.of_lines rfl)))
    exact ih ((ho.keeps_linked hs).of_lines rfl) ((ho.grows hs).grounded hg hp) (ho.has hs)

end Lowers

end Flowline
