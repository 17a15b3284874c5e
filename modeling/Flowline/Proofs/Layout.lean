import Flowline.Proofs.Checked

/-! The lines of a program are its blocks in pre-order. A line stands under the line before it or under one
    of the headers that one is in, so the lines of a body follow their header in one run. While a body is
    lowered, its header is open: the last line is the header or stands in it. -/

namespace Flowline

/-! ### Lines in each other -/

/-- From one address a second is reached through parents, in any number of steps. -/
inductive Within (ls : List Line) : Address → Address → Prop
  | refl (a : Address) : Within ls a a
  | up {l : Line} {a b : Address} (hl : l ∈ ls) (hp : l.parent = some a) (h : Within ls a b) : Within ls l.address b

/-- The parent of a line stands before it. -/
def Rooted (ls : List Line) : Prop :=
  ∀ (i : Nat) (l : Line) (a : Address), ls[i]? = some l → l.parent = some a →
    ∃ (j : Nat) (k : Line), j < i ∧ ls[j]? = some k ∧ k.address = a

/-- A line stands under the line before it, or under one of the headers that one is in, or at the top. -/
def Nested (ls : List Line) : Prop :=
  ∀ (i : Nat) (l k : Line) (a : Address), ls[i]? = some l → ls[i + 1]? = some k → k.parent = some a →
    Within ls l.address a

/-- A line is entered at the line right after it, if that one stands under it. -/
def EnteredNext (ls : List Line) : Prop :=
  ∀ (i : Nat) (l : Line) (a : Address), ls[i]? = some l →
    (l.enter = some a ↔ ∃ k, ls[i + 1]? = some k ∧ k.address = a ∧ k.parent = some l.address)

/-- Every parent is a line that may have a body. -/
def Headed (ls : List Line) : Prop :=
  ∀ l ∈ ls, ∀ k ∈ ls, l.parent = some k.address → k.method.opensBody = true

section Within

variable {ls : List Line} {a b c : Address}

theorem Within.trans (h : Within ls a b) (h' : Within ls b c) : Within ls a c := by
  induction h with
  | refl => exact h'
  | up hl hp _ ih => exact .up hl hp (ih h')

theorem Within.of_forall₂ {R : Line → Line → Prop} {ls' : List Line}
    (hR : ∀ {l l'}, R l l' → l'.address = l.address ∧ l'.parent = l.parent) (hs : List.Forall₂ R ls ls')
    (h : Within ls a b) : Within ls' a b := by
  induction h with
  | refl => exact .refl _
  | up hl hp _ ih =>
    obtain ⟨l', hl', hr⟩ := forall₂_mem_left hs _ hl
    rw [← (hR hr).1]
    exact .up hl' ((hR hr).2.trans hp) ih

theorem Within.append {ls' : List Line} (h : Within ls a b) : Within (ls ++ ls') a b := by
  induction h with
  | refl => exact .refl _
  | up hl hp _ ih => exact .up (List.mem_append_left _ hl) hp ih

/-- Parents lead to the front: what a line is in stands before it, or is the line itself. -/
theorem Within.index_le (h : Within ls a b) (hk : Keyed ls) (hr : Rooted ls) {i : Nat} {l : Line}
    (hl : ls[i]? = some l) (ha : l.address = a) : ∃ (j : Nat) (k : Line), j ≤ i ∧ ls[j]? = some k ∧ k.address = b := by
  induction h generalizing i l with
  | refl => exact ⟨i, l, le_rfl, hl, ha⟩
  | @up x c b hx hp _ ih =>
    obtain rfl := eq_of_address hk (List.mem_of_getElem? hl) hx ha
    obtain ⟨j, k, hj, hkj, hka⟩ := hr i l c hl hp
    obtain ⟨j', k', hj', hk', hb⟩ := ih hkj hka
    exact ⟨j', k', hj'.trans hj.le, hk', hb⟩

/-- Two lines that are in each other are the same. -/
theorem Within.antisymm (h : Within ls a b) (h' : Within ls b a) (hk : Keyed ls) (hr : Rooted ls) : a = b := by
  cases h with
  | refl => rfl
  | @up l c _ hl hp h =>
    obtain ⟨i, hi⟩ := List.mem_iff_getElem?.mp hl
    obtain ⟨j, k, hj, hkj, hka⟩ := hr i l c hi hp
    obtain ⟨j', k', hj', hk', hb⟩ := h.index_le hk hr hkj hka
    obtain ⟨i', l', hi', hl', hl'a⟩ := h'.index_le hk hr hk' hb
    have := hk.index_eq hl' hi hl'a
    omega

/-- The lines in a header follow it without a gap. -/
theorem Nested.contiguous (hn : Nested ls) (hk : Keyed ls) {i j : Nat} {h l : Line} (hi : ls[i]? = some h)
    (hj : ls[j]? = some l) (hw : Within ls l.address h.address) :
    ∀ d, i + d ≤ j → ∃ k, ls[j - d]? = some k ∧ Within ls k.address h.address := by
  intro d hd
  induction d with
  | zero => exact ⟨l, hj, hw⟩
  | succ d ih =>
    obtain ⟨k, hkd, hkw⟩ := ih (by omega)
    have hlt : j - (d + 1) < ls.length := by
      have := (List.getElem?_eq_some_iff.mp hj).1
      omega
    refine ⟨ls.get ⟨j - (d + 1), hlt⟩, List.getElem?_eq_getElem hlt, ?_⟩
    generalize ha : k.address = a at hkw
    cases hkw with
    | refl => exact absurd (hk.index_eq hi hkd ha.symm) (by omega)
    | @up x c _ hx hp hc =>
      obtain rfl := eq_of_address hk (List.mem_of_getElem? hkd) hx ha
      have hnext : ls[j - (d + 1) + 1]? = some k := by
        rw [← hkd]
        congr 1
        omega
      exact (hn _ _ k c (List.getElem?_eq_getElem hlt) hnext hp).trans hc

/-- A header that is open and is not the last line has been entered. -/
theorem Nested.follows (hn : Nested ls) (hk : Keyed ls) (hr : Rooted ls) {i j : Nat} {h l : Line}
    (hi : ls[i]? = some h) (hj : ls[j]? = some l) (hij : i < j) (hw : Within ls l.address h.address) :
    ∃ k, ls[i + 1]? = some k ∧ k.parent = some h.address := by
  obtain ⟨k, hkd, hkw⟩ := hn.contiguous hk hi hj hw (j - (i + 1)) (by omega)
  have hidx : j - (j - (i + 1)) = i + 1 := by omega
  rw [hidx] at hkd
  refine ⟨k, hkd, ?_⟩
  generalize ha : k.address = a at hkw
  cases hkw with
  | refl => exact absurd (hk.index_eq hi hkd ha.symm) (by omega)
  | @up x c _ hx hp hc =>
    obtain rfl := eq_of_address hk (List.mem_of_getElem? hkd) hx ha
    rw [hp, hc.antisymm (hn i h k c hi hkd hp) hk hr]

end Within

/-! ### Bodies that are open -/

/-- The lines are laid out in pre-order. -/
structure Laid (ls : List Line) : Prop where
  rooted : Rooted ls
  nested : Nested ls
  entered : EnteredNext ls
  headed : Headed ls

/-- Lines may be added under `p`: the last line is `p` or stands in it, and `p` may have a body. -/
structure Open (p : Option Address) (ls : List Line) : Prop where
  last : ∀ a, p = some a → ∃ l, ls.getLast? = some l ∧ Within ls l.address a
  method : ∀ k ∈ ls, p = some k.address → k.method.opensBody = true

section Open

variable {p : Option Address} {ls ls' : List Line} {s t : Store}

theorem Laid.nil : Laid [] where
  rooted _ _ _ h := by simp at h
  nested _ _ _ _ h := by simp at h
  entered _ _ _ h := by simp at h
  headed _ h := by cases h

theorem Open.none (ls : List Line) : Open none ls where
  last _ h := by cases h
  method _ _ h := by cases h

/-- Only addresses, parents, methods and the lines entered matter. -/
theorem Laid.of_forall₂ {R : Line → Line → Prop}
    (hR : ∀ {l l'}, R l l' →
      l'.address = l.address ∧ l'.parent = l.parent ∧ l'.method = l.method ∧ l'.enter = l.enter)
    (hs : List.Forall₂ R ls ls') (h : Laid ls) : Laid ls' where
  rooted i l' a hl' hp := by
    obtain ⟨l, hl, hr⟩ := forall₂_getElem?_right hs hl'
    obtain ⟨-, hparent, -, -⟩ := hR hr
    obtain ⟨j, k, hj, hk, ha⟩ := h.rooted i l a hl (hparent ▸ hp)
    obtain ⟨k', hk', hr'⟩ := forall₂_getElem?_left hs hk
    exact ⟨j, k', hj, hk', (hR hr').1.trans ha⟩
  nested i l' k' a hl' hk' hp := by
    obtain ⟨l, hl, hr⟩ := forall₂_getElem?_right hs hl'
    obtain ⟨k, hk, hr'⟩ := forall₂_getElem?_right hs hk'
    obtain ⟨-, hparent, -, -⟩ := hR hr'
    rw [(hR hr).1]
    exact (h.nested i l k a hl hk (hparent ▸ hp)).of_forall₂ (fun hr => ⟨(hR hr).1, (hR hr).2.1⟩) hs
  entered i l' a hl' := by
    obtain ⟨l, hl, hr⟩ := forall₂_getElem?_right hs hl'
    obtain ⟨haddress, -, -, henter⟩ := hR hr
    rw [henter, haddress, h.entered i l a hl]
    constructor
    · rintro ⟨k, hk, hka, hkp⟩
      obtain ⟨k', hk', hr'⟩ := forall₂_getElem?_left hs hk
      exact ⟨k', hk', (hR hr').1.trans hka, (hR hr').2.1.trans hkp⟩
    · rintro ⟨k', hk', hka, hkp⟩
      obtain ⟨k, hk, hr'⟩ := forall₂_getElem?_right hs hk'
      exact ⟨k, hk, (hR hr').1.symm.trans hka, (hR hr').2.1.symm.trans hkp⟩
  headed l' hl' k' hk' hp := by
    obtain ⟨l, hl, hr⟩ := forall₂_mem_right hs l' hl'
    obtain ⟨k, hk, hr'⟩ := forall₂_mem_right hs k' hk'
    obtain ⟨haddress, -, hmethod, -⟩ := hR hr'
    obtain ⟨-, hparent, -, -⟩ := hR hr
    rw [hmethod]
    exact h.headed l hl k hk (by rw [← hparent, hp, haddress])

/-- Statements under `p` leave the last line in `p`. -/
theorem Open.grows (h : Open p s.lines) (hp : s.Has p) (hg : Store.Grows p s t) (hk : Keyed t.lines) :
    Open p t.lines := by
  obtain ⟨old, new, ht, hold, hnew⟩ := hg
  have hkept : ∀ {l l' : Line}, l.Kept p l' → l'.address = l.address ∧ l'.parent = l.parent :=
    fun hr => ⟨hr.address, hr.parent⟩
  rw [ht] at hk ⊢
  refine ⟨fun a ha => ?_, fun k hmem ha => ?_⟩
  · obtain ⟨l, hl, hw⟩ := h.last a ha
    have hinside : ∀ x ∈ new, Within (old ++ new) x.address a := by
      clear ht hk
      induction hnew with
      | nil => intro x hx; cases hx
      | @concat ls y _ hy ih =>
        intro x hx
        rw [← List.append_assoc]
        rcases List.mem_append.mp hx with hx | hx
        · exact (ih x hx).append
        · rw [List.mem_singleton.mp hx]
          rcases hy with hy | ⟨z, hz, hy⟩
          · exact .up (by simp) (hy.trans ha) (.refl a)
          · exact .up (by simp) hy (ih z hz).append
    rcases List.eq_nil_or_concat new with rfl | ⟨init, x, rfl⟩
    · rw [List.append_nil]
      rw [List.getLast?_eq_getElem?] at hl
      obtain ⟨l', hl', hr⟩ := forall₂_getElem?_left hold hl
      refine ⟨l', ?_, ?_⟩
      · rw [List.getLast?_eq_getElem?, ← hold.length_eq, hl']
      · rw [hr.address]
        exact hw.of_forall₂ hkept hold
    · exact ⟨x, by simp, hinside x (by simp)⟩
  · -- The header is a line from before, since addresses are unique.
    obtain ⟨l, hl, hla⟩ := hp _ ha
    obtain ⟨l', hl', hr⟩ := forall₂_mem_left hold l hl
    rw [← eq_of_address hk (List.mem_append_left _ hl') hmem (hr.address.trans hla), hr.method]
    exact h.method l hl (hla ▸ ha)

end Open

/-! ### A line appended under an open header -/

section Concat

variable {p : Option Address} {s : Store} {k : Line}

theorem Rooted.concat (h : Rooted s.lines) (hp : s.Has p) (hk : k.parent = p) :
    Rooted (s.linkedTo p k.address ++ [k]) := by
  have hold := Store.touched_linkedTo s p k.address
  intro i l' a hl' hpa
  rcases getElem?_concat_cases hl' with hl' | ⟨rfl, rfl⟩
  · obtain ⟨l, hl, hr⟩ := forall₂_getElem?_right hold hl'
    obtain ⟨j, x, hj, hx, hxa⟩ := h i l a hl (hr.parent ▸ hpa)
    obtain ⟨x', hx', hr'⟩ := forall₂_getElem?_left hold hx
    exact ⟨j, x', hj, getElem?_append_some hx', hr'.address.trans hxa⟩
  · obtain ⟨x, hx, hxa⟩ := hp a (hk.symm.trans hpa)
    obtain ⟨j, hj⟩ := List.mem_iff_getElem?.mp hx
    obtain ⟨x', hx', hr'⟩ := forall₂_getElem?_left hold hj
    exact ⟨j, x', (List.getElem?_eq_some_iff.mp hx').1, getElem?_append_some hx', hr'.address.trans hxa⟩

theorem Nested.concat (h : Nested s.lines) (ho : Open p s.lines) (hk : k.parent = p) :
    Nested (s.linkedTo p k.address ++ [k]) := by
  have hold := Store.touched_linkedTo s p k.address
  intro i l' x' a hl' hx' hpa
  have hl' : (s.linkedTo p k.address)[i]? = some l' := by
    rcases getElem?_concat_cases hl' with hl' | ⟨rfl, -⟩
    · exact hl'
    · simp at hx'
  obtain ⟨l, hl, hr⟩ := forall₂_getElem?_right hold hl'
  refine Within.append (Within.of_forall₂ (fun hr => ⟨hr.address, hr.parent⟩) hold ?_)
  rw [hr.address]
  rcases getElem?_concat_cases hx' with hx' | ⟨hi, hxk⟩
  · obtain ⟨x, hx, hr'⟩ := forall₂_getElem?_right hold hx'
    exact h i l x a hl hx (hr'.parent ▸ hpa)
  · obtain ⟨last, hlast, hw⟩ := ho.last a (by rw [← hk, ← hxk, hpa])
    rw [List.getLast?_eq_getElem?, hold.length_eq, ← hi, Nat.add_sub_cancel, hl] at hlast
    exact Option.some.inj hlast ▸ hw

/-- The header is entered by the first line under it: any other line under it finds it entered already. -/
theorem EnteredNext.concat (h : EnteredNext s.lines) (hs : Keyed s.lines) (hr : Rooted s.lines) (hn : Nested s.lines)
    (ho : Open p s.lines) (hk : k.parent = p) (he : k.enter = none) :
    EnteredNext (s.linkedTo p k.address ++ [k]) := by
  have hold := Store.touched_linkedTo s p k.address
  intro i l' a hl'
  rcases getElem?_concat_cases hl' with hl' | ⟨hi, rfl⟩
  · obtain ⟨l, hl, hrl⟩ := forall₂_getElem?_right hold hl'
    have hlt := (List.getElem?_eq_some_iff.mp hl).1
    rw [hrl.address]
    by_cases hlast : i + 1 = s.lines.length
    · -- The line was the last one, so it has not been entered yet.
      have hnone : l.enter = none := by
        refine Option.eq_none_iff_forall_ne_some.mpr fun b hb => ?_
        obtain ⟨x, hx, -⟩ := (h i l b hl).mp hb
        simp [hlast] at hx
      have hnext : (s.linkedTo p k.address ++ [k])[i + 1]? = some k := by
        rw [hlast, hold.length_eq]
        simp
      rw [hrl.enter, hnone, Option.getD_none, hnext]
      by_cases hp : p = some l.address
      · simp [hp, hk]
      · simp [hp, hk]
    · have hlt' : i + 1 < s.lines.length := by omega
      obtain ⟨x', hx', hrx⟩ := forall₂_getElem?_left hold (List.getElem?_eq_getElem hlt')
      have hsame : l'.enter = l.enter := by
        rcases hrl.enter_cases with heq | ⟨-, hnone, hp⟩
        · exact heq
        · -- An open header that is not the last line has been entered.
          obtain ⟨last, hlast', hw⟩ := ho.last _ hp
          rw [List.getLast?_eq_getElem?] at hlast'
          obtain ⟨x, hx, hxp⟩ := hn.follows hs hr hl hlast' (by omega) hw
          rw [(h i l x.address hl).mpr ⟨x, hx, rfl, hxp⟩] at hnone
          cases hnone
      rw [hsame, h i l a hl, List.getElem?_eq_getElem hlt', getElem?_append_some hx']
      simp [hrx.address, hrx.parent]
  · rw [he]
    simp [hi]

theorem Headed.concat (h : Headed s.lines) (hr : Rooted s.lines) (hfresh : ∀ l ∈ s.lines, l.address ≠ k.address)
    (hp : s.Has p) (ho : Open p s.lines) (hk : k.parent = p) : Headed (s.linkedTo p k.address ++ [k]) := by
  have hold := Store.touched_linkedTo s p k.address
  intro l' hl' x' hx' hpa
  rcases List.mem_append.mp hx' with hx' | hx'
  · obtain ⟨x, hx, hrx⟩ := forall₂_mem_right hold x' hx'
    rw [show x'.method = x.method by rw [hrx.rest]]
    rw [hrx.address] at hpa
    rcases List.mem_append.mp hl' with hl' | hl'
    · obtain ⟨l, hl, hrl⟩ := forall₂_mem_right hold l' hl'
      exact h l hl x hx (hrl.parent ▸ hpa)
    · rw [List.mem_singleton.mp hl', hk] at hpa
      exact ho.method x hx hpa
  · -- No line stands under the new one.
    rw [List.mem_singleton.mp hx'] at hpa
    rcases List.mem_append.mp hl' with hl' | hl'
    · obtain ⟨l, hl, hrl⟩ := forall₂_mem_right hold l' hl'
      obtain ⟨i, hi⟩ := List.mem_iff_getElem?.mp hl
      obtain ⟨j, x, -, hx, hxa⟩ := hr i l _ hi (hrl.parent ▸ hpa)
      exact absurd hxa (hfresh x (List.mem_of_getElem? hx))
    · rw [List.mem_singleton.mp hl', hk] at hpa
      obtain ⟨x, hx, hxa⟩ := hp _ hpa
      exact absurd hxa (hfresh x hx)

theorem Laid.concat {t : Store} (h : Laid s.lines) (hs : s.Linked) (hp : s.Has p) (ho : Open p s.lines) {ln : UInt32}
    (ha : k.address = s.fresh ln) (hk : k.parent = p) (he : k.enter = none)
    (hl : t.lines = s.linkedTo p k.address ++ [k]) : Laid t.lines := by
  rw [hl]
  exact ⟨h.rooted.concat hp hk, h.nested.concat ho hk, h.entered.concat hs.keyed h.rooted h.nested ho hk he,
    h.headed.concat h.rooted (ha ▸ Store.fresh_ne hs ln) hp ho hk⟩

end Concat

/-! ### Whole programs -/

section Programs

variable {p : Option Address} {s t : Store} {o : Outcome} {h : Address} {names : List String}

theorem Laid.emit (hl : Laid s.lines) (hs : s.Linked) (hp : s.Has p) (ho : Open p s.lines) {m : Method} {ln : UInt32}
    {d : Draft} (hd : d.parent = p) : Laid (s.emit m ln d).lines :=
  hl.concat hs hp ho (k := s.newLine m ln d) rfl hd rfl (hd ▸ s.emit_lines m ln d)

theorem Laid.grounded (hl : Laid s.lines) : s.Grounded := by
  intro l hmem a ha
  obtain ⟨i, hi⟩ := List.mem_iff_getElem?.mp hmem
  obtain ⟨j, k, -, hk, hka⟩ := hl.rooted i l a hi ha
  exact ⟨k, List.mem_of_getElem? hk, hka⟩

theorem Opens.laid (ho : Opens p s h names t) (hs : s.Linked) (hp : s.Has p) (hl : Laid s.lines)
    (hopen : Open p s.lines) : Laid t.lines := by
  cases ho with
  | plain he => exact hl.emit hs hp hopen he.parent
  | linked he =>
    refine (hl.emit hs hp hopen he.parent).of_forall₂ (fun hr => ?_) (Store.forall₂_linkExit _ _)
    rw [hr]
    exact ⟨rfl, rfl, rfl, rfl⟩
  | declared =>
    rw [Store.declareFunction_lines]
    exact hl.emit hs hp hopen rfl

theorem Opens.opened (ho : Opens p s h names t) (hs : s.Linked) : Open (some h) t.lines := by
  have hk := (ho.keeps_linked hs).keyed
  obtain ⟨old, m, ln, d, ht, -, rfl, -, hm, -⟩ := ho.concat hs
  rw [ht] at hk ⊢
  refine ⟨fun a ha => ⟨s.newLine m ln d, by simp, ?_⟩, fun k hmem ha => ?_⟩
  · rw [← Option.some.inj ha]
    exact .refl _
  · rw [eq_of_address hk hmem (List.mem_append_right _ List.mem_cons_self) (Option.some.inj ha).symm]
    exact hm

theorem Lowers.laid (h : Lowers p s o t) (hs : s.Linked) (hp : s.Has p) (hl : Laid s.lines) (ho : Open p s.lines) :
    Laid t.lines := by
  induction h with
  | skip | stop | imports => exact hl
  | andThen h _ ih ih' =>
    have hst := h.grows hs hl.grounded hp
    exact ih' (h.linked hs) (hst.has hp) (ih hs hp hl ho) (ho.grows hp hst (h.linked hs).keyed)
  | @continues p s m more _ =>
    refine hl.of_forall₂ (fun hr => ?_) (Store.sameLinks_addArgsToLast s m more)
    exact ⟨hr.address, hr.parent, hr.method, hr.enter⟩
  | line he => exact hl.emit hs hp ho he.parent
  | @named p s m ln d path he _ =>
    exact hl.concat hs hp ho (k := { s.newLine m ln d with name := some path }) rfl he.parent rfl
      (he.parent ▸ s.nameLast_emit_lines m ln d path)
  | redeclared => exact hl.emit hs hp ho rfl
  | header hopens => exact hopens.laid hs hp hl ho
  | block hopens _ _ ih | inside hopens _ _ ih =>
    exact ih ((hopens.keeps_linked hs).of_lines rfl) (hopens.has hs) (hopens.laid hs hp hl ho) (hopens.opened hs)
  | @loop p s t u h c l ln _ _ _ _ _ hopens hbody ih =>
    have ht : (t.openScope h []).Linked := (hopens.keeps_linked hs).of_lines rfl
    have hlaid := hopens.laid hs hp hl ho
    have hu := hbody.linked ht
    have hgrows := hbody.grows ht hlaid.grounded (hopens.has hs)
    have hopen := Open.grows (s := t.openScope h []) (hopens.opened hs) (hopens.has hs) hgrows hu.keyed
    have hlaid' := ih ht (hopens.has hs) hlaid (hopens.opened hs)
    change Laid (u.copyLine c ln (some h)).2.lines
    rcases u.copyLine_cases c ln (some h) with ⟨-, heq⟩ | ⟨line, -, heq⟩ <;> rw [heq]
    · exact hlaid'
    · exact hlaid'.concat hu (hgrows.has (hopens.has hs)) hopen
        (k := { u.newLine line.method ln (line.draftUnder (some h)) with name := line.name }) rfl rfl rfl rfl

/-- Lines in pre-order: parents stand before their lines, a line stands under the line before it or under one
    that it is in, what is in a header follows it in one run, a header is entered at the next line exactly if
    that is its first one, and no `set`, `throw`, `break` or `return` line has a body. -/
structure Preorder (ls : List Line) : Prop extends Laid ls where
  contiguous : ∀ (i j n : Nat) (h l : Line), ls[i]? = some h → ls[n]? = some l → i ≤ j → j ≤ n →
    Within ls l.address h.address → ∃ k, ls[j]? = some k ∧ Within ls k.address h.address
  enter_next : ∀ l ∈ ls, ∀ a, l.enter = some a → l.next = some a

theorem Laid.preorder (hl : Laid s.lines) (hs : s.Linked) : Preorder s.lines where
  toLaid := hl
  contiguous i j n h l hi hn hij hjn hw := by
    obtain ⟨k, hk, hkw⟩ := hl.nested.contiguous hs.keyed hi hn hw (n - j) (by omega)
    exact ⟨k, by rwa [Nat.sub_sub_self hjn] at hk, hkw⟩
  enter_next l hmem a ha := by
    obtain ⟨i, hi⟩ := List.mem_iff_getElem?.mp hmem
    obtain ⟨k, hk, hka, -⟩ := (hl.entered i l a hi).mp ha
    rw [followed_iff.mp hs.followed i l hi, hk, Option.map_some, hka]

/-- The lines of a compiled program are its blocks in pre-order. -/
theorem compile_preorder {tree : Tree} {m : Manifest} (h : compile tree = .ok m) : Preorder m.lines := by
  obtain ⟨s, hs, rfl⟩ := compile_done h
  have hlaid := hs.laid Store.linked_empty (Store.has_none _) Laid.nil (Open.none _)
  exact hlaid.preorder (hs.linked Store.linked_empty)

theorem compile_preorder_program : ∃ m, compile Sample.program = .ok m ∧ m.lines.length = 16 ∧ Preorder m.lines := by
  obtain ⟨m, hm, hlength⟩ := compile_program
  exact ⟨m, hm, hlength, compile_preorder hm⟩

end Programs

end Flowline
