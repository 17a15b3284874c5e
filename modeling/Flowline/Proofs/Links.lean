import Flowline.Proofs.Lines

/-! The links of a store. Every operation keeps them whole, whatever its operands are: a line is addressed
    by its source line and by how many lines came from there before it, `next` leads to the line that
    follows, the line that a header enters has it as its parent, and a branch is left for a later line
    with the same parent. -/

namespace Flowline

/-- Each line is addressed by its source line and its ordinal among the lines from there. -/
def Keyed (ls : List Line) : Prop :=
  ∀ (i : Nat) (l : Line), ls[i]? = some l →
    l.address = .ofSource l.sourceLine ((ls.take i).countP (·.sourceLine == l.sourceLine))

/-- `next` leads from each line to the one that follows. -/
def Followed : List Line → Prop
  | [] => True
  | l :: rest => l.next = rest.head?.map (·.address) ∧ Followed rest

/-- The line that a header enters has it as its parent. -/
def Entered (ls : List Line) : Prop :=
  ∀ l ∈ ls, ∀ a, l.enter = some a → ∃ k ∈ ls, k.address = a ∧ k.parent = some l.address

/-- Only branches have a way out, and it leads to a later line with the same parent. -/
def Exited : List Line → Prop
  | [] => True
  | l :: rest =>
    (∀ a, l.exit = some a → l.method.isBranch = true ∧ ∃ k ∈ rest, k.address = a ∧ k.parent = l.parent) ∧
      Exited rest

/-- The links of a store are whole. -/
structure Store.Linked (s : Store) : Prop where
  keyed : Keyed s.lines
  followed : Followed s.lines
  entered : Entered s.lines
  exited : Exited s.lines

/-! ### Links by position -/

theorem followed_iff {ls : List Line} :
    Followed ls ↔ ∀ (i : Nat) (l : Line), ls[i]? = some l → l.next = ls[i + 1]?.map (·.address) := by
  induction ls with
  | nil => simp [Followed]
  | cons x rest ih =>
    rw [Followed, ih]
    constructor
    · rintro ⟨hx, hrest⟩ i l hl
      cases i with
      | zero =>
        cases hl
        rw [hx, List.getElem?_cons_succ, List.head?_eq_getElem?]
      | succ i => exact hrest i l hl
    · intro h
      refine ⟨?_, fun i l hl => h (i + 1) l hl⟩
      rw [h 0 x rfl, List.getElem?_cons_succ, List.head?_eq_getElem?]

theorem exited_iff {ls : List Line} :
    Exited ls ↔ ∀ (i : Nat) (l : Line) (a : Address), ls[i]? = some l → l.exit = some a →
      l.method.isBranch = true ∧ ∃ j k, i < j ∧ ls[j]? = some k ∧ k.address = a ∧ k.parent = l.parent := by
  induction ls with
  | nil => simp [Exited]
  | cons x rest ih =>
    rw [Exited, ih]
    constructor
    · rintro ⟨hx, hrest⟩ i l a hl ha
      cases i with
      | zero =>
        cases hl
        obtain ⟨hb, k, hk, hka, hkp⟩ := hx a ha
        obtain ⟨j, hj⟩ := List.mem_iff_getElem?.mp hk
        exact ⟨hb, j + 1, k, Nat.succ_pos j, hj, hka, hkp⟩
      | succ i =>
        obtain ⟨hb, j, k, hij, hk, hka, hkp⟩ := hrest i l a hl ha
        exact ⟨hb, j + 1, k, Nat.succ_lt_succ hij, hk, hka, hkp⟩
    · intro h
      refine ⟨fun a ha => ?_, fun i l a hl ha => ?_⟩
      · obtain ⟨hb, j, k, hij, hk, hka, hkp⟩ := h 0 x a rfl ha
        obtain ⟨j, rfl⟩ := Nat.exists_eq_succ_of_ne_zero (Nat.ne_zero_of_lt hij)
        exact ⟨hb, k, List.mem_of_getElem? hk, hka, hkp⟩
      · obtain ⟨hb, j, k, hij, hk, hka, hkp⟩ := h (i + 1) l a hl ha
        obtain ⟨j, rfl⟩ := Nat.exists_eq_succ_of_ne_zero (Nat.ne_zero_of_lt hij)
        exact ⟨hb, j, k, Nat.lt_of_succ_lt_succ hij, hk, hka, hkp⟩

/-! ### Addresses -/

theorem keyed_concat {ls : List Line} {l : Line} (h : Keyed ls)
    (hl : l.address = .ofSource l.sourceLine (ls.countP (·.sourceLine == l.sourceLine))) : Keyed (ls ++ [l]) := by
  intro i k hk
  rcases Nat.lt_trichotomy i ls.length with hi | hi | hi
  · rw [List.getElem?_append_left hi] at hk
    rw [List.take_append_of_le_length (Nat.le_of_lt hi)]
    exact h i k hk
  · subst hi
    rw [List.getElem?_concat_length, Option.some.injEq] at hk
    rw [List.take_left, ← hk]
    exact hl
  · rw [List.getElem?_eq_none (by simp; omega)] at hk
    cases hk

theorem countP_of_forall₂ {R : Line → Line → Prop} {ls ls' : List Line}
    (hR : ∀ {l l'}, R l l' → l'.sourceLine = l.sourceLine) (hs : List.Forall₂ R ls ls') (n : UInt32) :
    ls'.countP (·.sourceLine == n) = ls.countP (·.sourceLine == n) := by
  have hcomp : ∀ xs : List Line, xs.countP (·.sourceLine == n) = (xs.map Line.sourceLine).countP (· == n) :=
    fun xs => by rw [List.countP_map]; rfl
  rw [hcomp, hcomp, forall₂_map (fun hr => hR hr) hs]

/-- Addressing depends only on the addresses and the source lines. -/
theorem keyed_of_forall₂ {R : Line → Line → Prop} {ls ls' : List Line}
    (hR : ∀ {l l'}, R l l' → l'.address = l.address ∧ l'.sourceLine = l.sourceLine) (hs : List.Forall₂ R ls ls')
    (h : Keyed ls) : Keyed ls' := by
  intro i l' hl'
  have hcount := countP_of_forall₂ (fun hr => (hR hr).2) (List.forall₂_take i hs)
  have hi' : i < ls'.length := (List.getElem?_eq_some_iff.mp hl').1
  have hi : i < ls.length := hs.length_eq ▸ hi'
  have hr := (List.forall₂_iff_get.mp hs).2 i hi hi'
  have hget : ls'.get ⟨i, hi'⟩ = l' := (List.getElem?_eq_some_iff.mp hl').2
  rw [hget] at hr
  rw [(hR hr).1, (hR hr).2, hcount]
  exact h i _ (List.getElem?_eq_getElem hi)

theorem Keyed.nodup {ls : List Line} (h : Keyed ls) : (ls.map (·.address)).Nodup := by
  rw [List.nodup_iff_injective_get]
  -- Of two lines with one address, the ordinal of the later counts the earlier.
  have hlt : ∀ i j (hi : i < ls.length) (hj : j < ls.length), i < j → ls[i].address ≠ ls[j].address := by
    intro i j hi hj hij heq
    have hi' := h i _ (List.getElem?_eq_getElem hi)
    have hj' := h j _ (List.getElem?_eq_getElem hj)
    rw [heq, hj'] at hi'
    obtain ⟨hline, hcount⟩ := Address.ofSource_inj hi'
    have hsub : (ls.take (i + 1)).countP (·.sourceLine == ls[i].sourceLine) ≤
        (ls.take j).countP (·.sourceLine == ls[i].sourceLine) :=
      (List.take_prefix_take_left (by omega)).sublist.countP_le
    rw [List.take_succ_eq_append_getElem hi, List.countP_append] at hsub
    simp only [List.countP_singleton, beq_self_eq_true, if_true] at hsub
    rw [← hline] at hcount
    rw [← hline] at hsub
    omega
  rintro ⟨i, hi⟩ ⟨j, hj⟩ heq
  simp only [List.length_map] at hi hj
  simp only [List.get_eq_getElem, List.getElem_map] at heq
  rcases Nat.lt_trichotomy i j with hij | hij | hij
  · exact absurd heq (hlt i j hi hj hij)
  · exact Fin.ext hij
  · exact absurd heq.symm (hlt j i hj hi hij)

theorem eq_of_address {ls : List Line} (h : Keyed ls) {l k : Line} (hl : l ∈ ls) (hk : k ∈ ls)
    (ha : l.address = k.address) : l = k :=
  List.inj_on_of_nodup_map h.nodup hl hk ha

theorem Keyed.index_eq {ls : List Line} (hk : Keyed ls) {i j : Nat} {l k : Line} (hl : ls[i]? = some l)
    (hj : ls[j]? = some k) (ha : l.address = k.address) : i = j := by
  have hi : i < (ls.map (·.address)).length := by simpa using (List.getElem?_eq_some_iff.mp hl).1
  refine (List.getElem?_inj hi hk.nodup).mp ?_
  rw [List.getElem?_map, List.getElem?_map, hl, hj, Option.map_some, Option.map_some, ha]

theorem find?_address_iff {ls : List Line} (hu : (ls.map (·.address)).Nodup) {a : Address} {k : Line} :
    ls.find? (·.address == a) = some k ↔ k ∈ ls ∧ k.address = a := by
  have hfound : ∀ {b k'}, ls.find? (·.address == b) = some k' → k' ∈ ls ∧ k'.address = b := fun {b} _ h =>
    ⟨List.mem_of_find?_eq_some h, beq_iff_eq.mp (List.find?_some (p := fun l : Line => l.address == b) h)⟩
  refine ⟨hfound, ?_⟩
  rintro ⟨hk, rfl⟩
  obtain ⟨k', hk'⟩ : ∃ k', ls.find? (·.address == k.address) = some k' :=
    Option.isSome_iff_exists.mp (List.find?_isSome.mpr ⟨k, hk, by simp⟩)
  obtain ⟨hmem, ha⟩ := hfound hk'
  rw [hk', List.inj_on_of_nodup_map hu hmem hk ha]

/-! ### Lines changed in place -/

theorem followed_of_forall₂ {R : Line → Line → Prop} {ls ls' : List Line}
    (hR : ∀ {l l'}, R l l' → l'.address = l.address ∧ l'.next = l.next) (hs : List.Forall₂ R ls ls')
    (h : Followed ls) : Followed ls' := by
  induction hs with
  | nil => trivial
  | @cons l l' rest rest' hr hrest ih =>
    refine ⟨?_, ih h.2⟩
    rw [(hR hr).2, h.1]
    cases hrest with
    | nil => rfl
    | cons hk _ => simp only [List.head?_cons, Option.map_some, (hR hk).1]

theorem entered_of_forall₂ {R : Line → Line → Prop} {ls ls' : List Line}
    (hR : ∀ {l l'}, R l l' → l'.address = l.address ∧ l'.parent = l.parent ∧ l'.enter = l.enter)
    (hs : List.Forall₂ R ls ls') (h : Entered ls) : Entered ls' := by
  intro l' hl' a ha
  obtain ⟨l, hl, hr⟩ := forall₂_mem_right hs l' hl'
  obtain ⟨haddr, -, henter⟩ := hR hr
  obtain ⟨k, hk, hka, hkp⟩ := h l hl a (henter ▸ ha)
  obtain ⟨k', hk', hr'⟩ := forall₂_mem_left hs k hk
  obtain ⟨haddr', hparent', -⟩ := hR hr'
  exact ⟨k', hk', haddr'.trans hka, by rw [hparent', hkp, haddr]⟩

theorem exited_of_forall₂ {R : Line → Line → Prop} {ls ls' : List Line}
    (hR : ∀ {l l'}, R l l' →
      l'.address = l.address ∧ l'.method = l.method ∧ l'.parent = l.parent ∧ l'.exit = l.exit)
    (hs : List.Forall₂ R ls ls') (h : Exited ls) : Exited ls' := by
  induction hs with
  | nil => trivial
  | @cons l l' rest rest' hr hrest ih =>
    refine ⟨fun a ha => ?_, ih h.2⟩
    obtain ⟨-, hmethod, hparent, hexit⟩ := hR hr
    obtain ⟨hb, k, hk, hka, hkp⟩ := h.1 a (hexit ▸ ha)
    obtain ⟨k', hk', hr'⟩ := forall₂_mem_left hrest k hk
    obtain ⟨haddr', -, hparent', -⟩ := hR hr'
    exact ⟨hmethod ▸ hb, k', hk', haddr'.trans hka, by rw [hparent', hkp, hparent]⟩

/-- The lines differ at most in what they hold besides their links. -/
structure Line.SameLinks (l l' : Line) : Prop where
  address : l'.address = l.address
  sourceLine : l'.sourceLine = l.sourceLine
  method : l'.method = l.method
  parent : l'.parent = l.parent
  next : l'.next = l.next
  enter : l'.enter = l.enter
  exit : l'.exit = l.exit

theorem Line.SameLinks.refl (l : Line) : l.SameLinks l := ⟨rfl, rfl, rfl, rfl, rfl, rfl, rfl⟩

namespace Store

variable {s t : Store}

theorem Linked.of_sameLinks (h : s.Linked) (hs : List.Forall₂ Line.SameLinks s.lines t.lines) : t.Linked where
  keyed := keyed_of_forall₂ (fun hr => ⟨hr.address, hr.sourceLine⟩) hs h.keyed
  followed := followed_of_forall₂ (fun hr => ⟨hr.address, hr.next⟩) hs h.followed
  entered := entered_of_forall₂ (fun hr => ⟨hr.address, hr.parent, hr.enter⟩) hs h.entered
  exited := exited_of_forall₂ (fun hr => ⟨hr.address, hr.method, hr.parent, hr.exit⟩) hs h.exited

theorem Linked.of_lines (h : s.Linked) (hl : t.lines = s.lines) : t.Linked :=
  h.of_sameLinks (hl ▸ List.forall₂_same.mpr fun l _ => Line.SameLinks.refl l)

theorem Linked.updateLast (h : s.Linked) {f : Line → Line} (hf : ∀ l : Line, l.SameLinks (f l))
    (hl : t.lines = Line.updateLast f s.lines) : t.Linked :=
  h.of_sameLinks (hl ▸ Line.forall₂_updateLast Line.SameLinks.refl hf _)

theorem Linked.nameLast (h : s.Linked) (path : List Segment) : (s.nameLast path).Linked :=
  h.updateLast (f := fun l => { l with name := some path }) (fun _ => ⟨rfl, rfl, rfl, rfl, rfl, rfl, rfl⟩) rfl

theorem Linked.outputLast (h : s.Linked) (names : List String) : (s.outputLast names).Linked :=
  h.updateLast (f := fun l => { l with output := some names }) (fun _ => ⟨rfl, rfl, rfl, rfl, rfl, rfl, rfl⟩) rfl

theorem sameLinks_addArgs (s : Store) (a : Address) (m : Method) (more : List Value) :
    List.Forall₂ Line.SameLinks s.lines (s.addArgs a m more).2.lines := by
  rcases s.addArgs_cases a m more with heq | ⟨_, -, -, heq⟩ <;> rw [heq]
  · exact List.forall₂_same.mpr fun l _ => Line.SameLinks.refl l
  · refine Line.forall₂_map_self (fun l => ?_) _
    split
    · exact ⟨rfl, rfl, rfl, rfl, rfl, rfl, rfl⟩
    · exact Line.SameLinks.refl l

theorem sameLinks_addArgsToLast (s : Store) (m : Method) (more : List Value) :
    List.Forall₂ Line.SameLinks s.lines (s.addArgsToLast m more).2.lines := by
  rcases s.addArgsToLast_cases m more with heq | ⟨a, -, heq⟩ <;> rw [heq]
  · exact List.forall₂_same.mpr fun l _ => Line.SameLinks.refl l
  · exact s.sameLinks_addArgs a m more

/-! ### Appending a line -/

theorem enteredBy_eq (parent : Option Address) (a : Address) (l : Line) :
    Line.enteredBy parent a l = { l with enter := (Line.enteredBy parent a l).enter } := by
  unfold Line.enteredBy Line.withEnter
  split <;> [split; skip] <;> rfl

theorem enteredBy_enter (parent : Option Address) (a : Address) (l : Line) :
    (Line.enteredBy parent a l).enter = if parent = some l.address then some (l.enter.getD a) else l.enter := by
  unfold Line.enteredBy Line.withEnter
  split
  · cases he : l.enter <;> simp [he]
  · rfl

/-- How the lines before a new one at `a` under `parent` differ from before: the parent is entered. -/
structure Touched (parent : Option Address) (a : Address) (l l' : Line) : Prop where
  rest : l' = { l with enter := l'.enter, next := l'.next }
  enter : l'.enter = if parent = some l.address then some (l.enter.getD a) else l.enter

theorem Touched.address {parent : Option Address} {a : Address} {l l' : Line} (h : Touched parent a l l') :
    l'.address = l.address := by rw [h.rest]

theorem Touched.parent {parent : Option Address} {a : Address} {l l' : Line} (h : Touched parent a l l') :
    l'.parent = l.parent := by rw [h.rest]

theorem Touched.enter_cases {parent : Option Address} {a : Address} {l l' : Line} (h : Touched parent a l l') :
    l'.enter = l.enter ∨ l'.enter = some a ∧ l.enter = none ∧ parent = some l.address := by
  have he := h.enter
  split at he
  · rename_i hp
    cases hl : l.enter with
    | none => exact Or.inr ⟨by rw [he, hl, Option.getD_none], rfl, hp⟩
    | some b => exact Or.inl (by rw [he, hl, Option.getD_some])
  · exact Or.inl he

theorem touched_linkedTo (s : Store) (parent : Option Address) (a : Address) :
    List.Forall₂ (Touched parent a) s.lines (s.linkedTo parent a) := by
  refine (s.forall₂_linkedTo parent a).imp fun l l' ⟨next, hl'⟩ => ⟨?_, ?_⟩
  · rw [hl', enteredBy_eq]
  · rw [hl', enteredBy_enter]

theorem followed_link {e : Line → Line} (he : ∀ l, (e l).address = l.address ∧ (e l).next = l.next) {l k : Line}
    (hk : k.next = none) : ∀ {init : List Line}, Followed (init ++ [l]) →
      Followed (init.map e ++ [e { l with next := some k.address }, k])
  | [], _ => ⟨(he _).2, hk, trivial⟩
  | x :: init, h => by
    refine ⟨?_, followed_link he hk h.2⟩
    rw [(he x).2, h.1]
    cases init with
    | nil => simp [(he { l with next := some k.address }).1]
    | cons y init => simp [(he y).1]

theorem exited_concat {k : Line} (hk : k.exit = none) : ∀ {ls : List Line}, Exited ls → Exited (ls ++ [k])
  | [], _ => by
    refine ⟨fun a ha => ?_, trivial⟩
    rw [hk] at ha
    cases ha
  | l :: ls, h => by
    refine ⟨fun a ha => ?_, exited_concat hk h.2⟩
    obtain ⟨hb, x, hx, hxa, hxp⟩ := h.1 a ha
    exact ⟨hb, x, List.mem_append_left _ hx, hxa, hxp⟩

/-- Appending links the new line, which may hold anything but links of its own besides its parent. -/
theorem Linked.concat (h : s.Linked) {k : Line} {parent : Option Address}
    (ha : k.address = s.fresh k.sourceLine) (hp : k.parent = parent) (hn : k.next = none) (he : k.enter = none)
    (hx : k.exit = none) (hl : t.lines = s.linkedTo parent k.address ++ [k]) : t.Linked where
  keyed := by
    have hs := touched_linkedTo s parent k.address
    rw [hl]
    refine keyed_concat (keyed_of_forall₂ (fun hr => ⟨by rw [hr.rest], by rw [hr.rest]⟩) hs h.keyed) ?_
    rw [countP_of_forall₂ (fun hr => by rw [hr.rest]) hs]
    exact ha
  followed := by
    rw [hl]
    have haddr : ∀ l, (Line.enteredBy parent k.address l).address = l.address ∧
        (Line.enteredBy parent k.address l).next = l.next := fun l => by
      rw [enteredBy_eq]
      exact ⟨rfl, rfl⟩
    rcases List.eq_nil_or_concat s.lines with hs | ⟨init, l, hs⟩
    · rw [linkedTo_nil hs]
      exact ⟨hn, trivial⟩
    · rw [List.concat_eq_append] at hs
      rw [linkedTo_concat hs, List.append_assoc]
      exact followed_link haddr hn (hs ▸ h.followed)
  entered := by
    have hs := touched_linkedTo s parent k.address
    rw [hl]
    intro l' hl' a hla
    rcases List.mem_append.mp hl' with hl' | hl'
    · obtain ⟨l, hl, hr⟩ := forall₂_mem_right hs l' hl'
      rcases hr.enter_cases with heq | ⟨heq, -, hpl⟩
      · obtain ⟨x, hx, hxa, hxp⟩ := h.entered l hl a (heq ▸ hla)
        obtain ⟨x', hx', hr'⟩ := forall₂_mem_left hs x hx
        refine ⟨x', List.mem_append_left _ hx', ?_, ?_⟩
        · rw [hr'.rest, ← hxa]
        · rw [hr'.rest, hr.rest, ← hxp]
      · rw [heq, Option.some.injEq] at hla
        exact ⟨k, by simp, hla, by rw [hp, hpl, hr.rest]⟩
    · rw [List.mem_singleton.mp hl', he] at hla
      cases hla
  exited := by
    rw [hl]
    refine exited_concat hx (exited_of_forall₂ (fun hr => ?_) (touched_linkedTo s parent k.address) h.exited)
    rw [hr.rest]
    exact ⟨rfl, rfl, rfl, rfl⟩

theorem Linked.append (h : s.Linked) (m : Method) (ln : UInt32) (d : Draft) : (s.append m ln d).2.Linked :=
  h.concat (k := s.newLine m ln d) rfl rfl rfl rfl rfl (append_lines s m ln d)

theorem Linked.copyLine (h : s.Linked) (a : Address) (ln : UInt32) (parent : Option Address) :
    (s.copyLine a ln parent).2.Linked := by
  rcases s.copyLine_cases a ln parent with ⟨-, heq⟩ | ⟨line, -, heq⟩ <;> rw [heq]
  · exact h
  · exact h.concat (k := { s.newLine line.method ln (line.draftUnder parent) with name := line.name }) rfl rfl rfl rfl
      rfl rfl

/-! ### Linking a branch -/

theorem exited_link {b target : Line} {mid post : List Line} (hb : b.method.isBranch = true)
    (hp : b.parent = target.parent) : ∀ {pre : List Line}, Exited (pre ++ b :: (mid ++ target :: post)) →
      Exited (pre ++ { b with exit := some target.address } :: (mid ++ target :: post))
  | [], h => by
    refine ⟨fun a ha => ⟨hb, target, by simp, Option.some.inj ha, hp.symm⟩, h.2⟩
  | l :: pre, h => by
    refine ⟨fun a ha => ?_, exited_link hb hp h.2⟩
    obtain ⟨hl, k, hk, hka, hkp⟩ := h.1 a ha
    refine ⟨hl, ?_⟩
    rcases List.mem_append.mp hk with hk | hk
    · exact ⟨k, List.mem_append_left _ hk, hka, hkp⟩
    · rcases List.mem_cons.mp hk with rfl | hk
      · exact ⟨{ k with exit := some target.address }, by simp, hka, hkp⟩
      · exact ⟨k, List.mem_append_right _ (List.mem_cons_of_mem _ hk), hka, hkp⟩

theorem forall₂_linkExit (s : Store) (a : Address) :
    List.Forall₂ (fun l l' : Line => l' = { l with exit := l'.exit }) s.lines (s.linkExit a).lines := by
  rcases s.linkExit_cases a with heq | ⟨pre, b, mid, target, post, hs, -, -, -, -, heq⟩
  · rw [heq]
    exact List.forall₂_same.mpr fun _ _ => rfl
  · rw [heq, hs]
    refine List.rel_append ?_ (.cons ?_ ?_)
    · exact List.forall₂_same.mpr fun _ _ => rfl
    · rfl
    · exact List.forall₂_same.mpr fun _ _ => rfl

theorem Linked.linkExit (h : s.Linked) (a : Address) : (s.linkExit a).Linked := by
  have hrel := s.forall₂_linkExit a
  refine ⟨?_, ?_, ?_, ?_⟩
  · exact keyed_of_forall₂ (fun hr => ⟨by rw [hr], by rw [hr]⟩) hrel h.keyed
  · exact followed_of_forall₂ (fun hr => ⟨by rw [hr], by rw [hr]⟩) hrel h.followed
  · exact entered_of_forall₂ (fun hr => ⟨by rw [hr], by rw [hr], by rw [hr]⟩) hrel h.entered
  · rcases s.linkExit_cases a with heq | ⟨pre, b, mid, target, post, hs, rfl, hp, hb, -, heq⟩
    · rw [heq]
      exact h.exited
    · rw [heq]
      exact exited_link hb hp (hs ▸ h.exited)

end Store

end Flowline
