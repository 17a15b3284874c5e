import Flowline.Proofs.Address
import Flowline.Store

/-! What the operations of a store do to its lines. An operation either appends one line, touching the
    line before it and its header, or changes lines in place, and the lemmas say which line it changes. -/

namespace Flowline

/-! ### Lists related line by line -/

theorem forall₂_trans {α β γ : Type} {R : α → β → Prop} {S : β → γ → Prop} {T : α → γ → Prop}
    (hT : ∀ a b c, R a b → S b c → T a c) :
    ∀ {xs : List α} {ys : List β} {zs : List γ}, List.Forall₂ R xs ys → List.Forall₂ S ys zs → List.Forall₂ T xs zs
  | _, _, _, .nil, .nil => .nil
  | _, _, _, .cons h t, .cons h' t' => .cons (hT _ _ _ h h') (forall₂_trans hT t t')

theorem forall₂_append_left {α β : Type} {R : α → β → Prop} :
    ∀ {xs xs' : List α} {zs : List β}, List.Forall₂ R (xs ++ xs') zs →
      ∃ ys ys', List.Forall₂ R xs ys ∧ List.Forall₂ R xs' ys' ∧ zs = ys ++ ys'
  | [], _, zs, h => ⟨[], zs, .nil, h, rfl⟩
  | _ :: _, _, _, .cons h t => by
    obtain ⟨ys, ys', h₁, h₂, rfl⟩ := forall₂_append_left t
    exact ⟨_ :: ys, ys', .cons h h₁, h₂, rfl⟩

theorem forall₂_mem_left {α β : Type} {R : α → β → Prop} {xs : List α} {ys : List β} (h : List.Forall₂ R xs ys) :
    ∀ x ∈ xs, ∃ y ∈ ys, R x y := by
  induction h with
  | nil => intro x hx; cases hx
  | @cons x y xs ys hxy _ ih =>
    intro z hz
    rcases List.mem_cons.mp hz with rfl | hz
    · exact ⟨y, List.mem_cons_self, hxy⟩
    · obtain ⟨w, hw, hr⟩ := ih z hz
      exact ⟨w, List.mem_cons_of_mem _ hw, hr⟩

theorem forall₂_mem_right {α β : Type} {R : α → β → Prop} {xs : List α} {ys : List β} (h : List.Forall₂ R xs ys) :
    ∀ y ∈ ys, ∃ x ∈ xs, R x y :=
  forall₂_mem_left h.flip

theorem forall₂_getElem?_left {α : Type} {R : α → α → Prop} {xs ys : List α} (h : List.Forall₂ R xs ys) {i : Nat}
    {x : α} (hx : xs[i]? = some x) : ∃ y, ys[i]? = some y ∧ R x y := by
  induction h generalizing i with
  | nil => simp at hx
  | @cons _ y _ _ hxy _ ih =>
    cases i with
    | zero => exact ⟨y, rfl, Option.some.inj hx ▸ hxy⟩
    | succ i => exact ih hx

theorem forall₂_getElem?_right {α : Type} {R : α → α → Prop} {xs ys : List α} (h : List.Forall₂ R xs ys) {i : Nat}
    {y : α} (hy : ys[i]? = some y) : ∃ x, xs[i]? = some x ∧ R x y := by
  induction h generalizing i with
  | nil => simp at hy
  | @cons x _ _ _ hxy _ ih =>
    cases i with
    | zero => exact ⟨x, rfl, Option.some.inj hy ▸ hxy⟩
    | succ i => exact ih hy

theorem getElem?_append_some {α : Type} {xs ys : List α} {i : Nat} {x : α} (h : xs[i]? = some x) :
    (xs ++ ys)[i]? = some x := by
  rw [List.getElem?_append_left (List.getElem?_eq_some_iff.mp h).1, h]

theorem getElem?_concat_cases {α : Type} {xs : List α} {x y : α} {i : Nat} (h : (xs ++ [x])[i]? = some y) :
    xs[i]? = some y ∨ i = xs.length ∧ y = x := by
  rw [List.getElem?_append] at h
  split at h
  · exact Or.inl h
  · rename_i hi
    obtain ⟨hlt, hget⟩ := List.getElem?_eq_some_iff.mp h
    simp only [List.length_singleton] at hlt
    exact Or.inr ⟨by omega, by simpa using hget.symm⟩

theorem forall₂_map {α β : Type} {R : α → α → Prop} {f : α → β} (hf : ∀ {a b}, R a b → f b = f a) {xs ys : List α}
    (h : List.Forall₂ R xs ys) : ys.map f = xs.map f := by
  induction h with
  | nil => rfl
  | cons hxy _ ih => rw [List.map_cons, List.map_cons, hf hxy, ih]

theorem forall₂_imp_mem {α β : Type} {R S : α → β → Prop} {xs : List α} {ys : List β} (h : List.Forall₂ R xs ys)
    (hi : ∀ a ∈ xs, ∀ b, R a b → S a b) : List.Forall₂ S xs ys := by
  induction h with
  | nil => exact .nil
  | cons hr _ ih => exact .cons (hi _ List.mem_cons_self _ hr) (ih fun a ha => hi a (List.mem_cons_of_mem _ ha))

theorem forall₂_find? {α β : Type} {R : α → β → Prop} {p : α → Bool} {q : β → Bool} {xs : List α} {ys : List β}
    (h : List.Forall₂ R xs ys) (hp : ∀ a b, R a b → p a = q b) : Option.Rel R (xs.find? p) (ys.find? q) := by
  induction h with
  | nil => exact .none
  | cons hr _ ih =>
    rw [List.find?_cons, List.find?_cons, hp _ _ hr]
    split
    · exact .some hr
    · exact ih

/-! ### Changing one line -/

namespace Line

theorem updateLast_concat (f : Line → Line) (l : Line) : ∀ ls : List Line, updateLast f (ls ++ [l]) = ls ++ [f l]
  | [] => rfl
  | [_] => rfl
  | x :: y :: ls => by
    have ih := updateLast_concat f l (y :: ls)
    simp only [List.cons_append] at ih ⊢
    rw [updateLast, ih]

theorem forall₂_updateLast {R : Line → Line → Prop} {f : Line → Line} (refl : ∀ l, R l l) (hf : ∀ l, R l (f l))
    (ls : List Line) : List.Forall₂ R ls (updateLast f ls) := by
  rcases List.eq_nil_or_concat ls with rfl | ⟨init, l, rfl⟩
  · exact .nil
  · rw [List.concat_eq_append, updateLast_concat]
    exact List.rel_append (List.forall₂_same.mpr fun l _ => refl l) (.cons (hf l) .nil)

theorem forall₂_map_self {R : Line → Line → Prop} {f : Line → Line} (hf : ∀ l, R l (f l)) (ls : List Line) :
    List.Forall₂ R ls (ls.map f) :=
  List.forall₂_map_right_iff.mpr (List.forall₂_same.mpr fun l _ => hf l)

theorem not_of_updateLastWhere?_none {p : Line → Bool} {f : Line → Line} :
    ∀ {ls : List Line}, updateLastWhere? p f ls = none → ∀ k ∈ ls, p k = false
  | [], _, _, hk => by cases hk
  | l :: rest, h, k, hk => by
    unfold updateLastWhere? at h
    cases hr : updateLastWhere? p f rest with
    | some tail => simp [hr] at h
    | none =>
      simp only [hr, ite_eq_right_iff, reduceCtorEq, imp_false, Bool.not_eq_true] at h
      rcases List.mem_cons.mp hk with rfl | hk
      · exact h
      · exact not_of_updateLastWhere?_none hr k hk

/-- The line that changes is the last one of which `p` holds. -/
theorem updateLastWhere?_split {p : Line → Bool} {f : Line → Line} :
    ∀ {ls updated : List Line}, updateLastWhere? p f ls = some updated →
      ∃ pre l post, ls = pre ++ l :: post ∧ p l = true ∧ (∀ k ∈ post, p k = false) ∧ updated = pre ++ f l :: post
  | [], _, h => by cases h
  | l :: rest, updated, h => by
    unfold updateLastWhere? at h
    cases hr : updateLastWhere? p f rest with
    | some tail =>
      simp only [hr, Option.some.injEq] at h
      obtain ⟨pre, b, post, rfl, hb, hpost, rfl⟩ := updateLastWhere?_split hr
      exact ⟨l :: pre, b, post, rfl, hb, hpost, h.symm⟩
    | none =>
      simp only [hr, Option.ite_none_right_eq_some, Option.some.injEq] at h
      exact ⟨[], l, rest, rfl, h.1, not_of_updateLastWhere?_none hr, h.2.symm⟩

theorem updateLastWhere?_none {p : Line → Bool} {f : Line → Line} :
    ∀ {ls : List Line}, (∀ k ∈ ls, p k = false) → updateLastWhere? p f ls = none
  | [], _ => rfl
  | l :: rest, h => by
    rw [updateLastWhere?, updateLastWhere?_none fun k hk => h k (List.mem_cons_of_mem _ hk)]
    simp [h l List.mem_cons_self]

theorem updateLastWhere?_eq {p : Line → Bool} {f : Line → Line} {l : Line} {post : List Line} (hl : p l = true)
    (hpost : ∀ k ∈ post, p k = false) :
    ∀ pre : List Line, updateLastWhere? p f (pre ++ l :: post) = some (pre ++ f l :: post)
  | [] => by
    rw [List.nil_append, updateLastWhere?, updateLastWhere?_none hpost]
    simp [hl]
  | x :: pre => by
    rw [List.cons_append, updateLastWhere?, updateLastWhere?_eq hl hpost pre]
    rfl

/-- What appending a line at `address` under `parent` does to the other lines: the parent is entered there. -/
def enteredBy (parent : Option Address) (address : Address) (l : Line) : Line :=
  if parent = some l.address then l.withEnter address else l

end Line

/-! ### Operations -/

namespace Store

variable (s : Store)

theorem line?_eq_some {a : Address} {l : Line} (h : s.line? a = some l) : l ∈ s.lines ∧ l.address = a :=
  ⟨List.mem_of_find?_eq_some h, beq_iff_eq.mp (List.find?_some (p := fun l : Line => l.address == a) h)⟩

@[simp] theorem newLine_address (m : Method) (ln : UInt32) (d : Draft) : (s.newLine m ln d).address = s.fresh ln := rfl
@[simp] theorem newLine_parent (m : Method) (ln : UInt32) (d : Draft) : (s.newLine m ln d).parent = d.parent := rfl

@[simp] theorem append_address (m : Method) (ln : UInt32) (d : Draft) : (s.append m ln d).1 = s.fresh ln := rfl
@[simp] theorem append_scopes (m : Method) (ln : UInt32) (d : Draft) : (s.append m ln d).2.scopes = s.scopes := rfl
@[simp] theorem append_functions (m : Method) (ln : UInt32) (d : Draft) :
    (s.append m ln d).2.functions = s.functions := rfl

/-- The lines before the one appended, with `next` and `enter` linked to it. -/
def linkedTo (s : Store) (parent : Option Address) (address : Address) : List Line :=
  (Line.updateLast (fun l => { l with next := some address }) s.lines).map (Line.enteredBy parent address)

theorem append_lines (m : Method) (ln : UInt32) (d : Draft) :
    (s.append m ln d).2.lines = s.linkedTo d.parent (s.fresh ln) ++ [s.newLine m ln d] := rfl

theorem linkedTo_nil {s : Store} (hs : s.lines = []) (parent : Option Address) (a : Address) :
    s.linkedTo parent a = [] := by
  rw [linkedTo, hs]
  rfl

theorem linkedTo_concat {s : Store} {init : List Line} {l : Line} (hs : s.lines = init ++ [l])
    (parent : Option Address) (a : Address) :
    s.linkedTo parent a =
      init.map (Line.enteredBy parent a) ++ [Line.enteredBy parent a { l with next := some a }] := by
  rw [linkedTo, hs, Line.updateLast_concat, List.map_append, List.map_singleton]

theorem forall₂_linkedTo (parent : Option Address) (a : Address) :
    List.Forall₂ (fun l l' : Line => ∃ next, l' = Line.enteredBy parent a { l with next }) s.lines
      (s.linkedTo parent a) := by
  refine List.forall₂_map_right_iff.mpr (Line.forall₂_updateLast (fun l => ?_) (fun l => ?_) _)
  · exact ⟨l.next, rfl⟩
  · exact ⟨some a, rfl⟩

/-- A link to an address either changes nothing or makes it the way out of the nearest branch before it
    that has the same parent. -/
theorem linkExit_cases (a : Address) : s.linkExit a = s ∨
    ∃ pre b mid target post, s.lines = pre ++ b :: (mid ++ target :: post) ∧ target.address = a ∧
      b.parent = target.parent ∧ b.method.isBranch = true ∧
      (∀ k ∈ mid, ¬(k.parent = target.parent ∧ k.method.isBranch = true)) ∧
      s.linkExit a = { s with lines := pre ++ { b with exit := some a } :: (mid ++ target :: post) } := by
  have hsplit := List.takeWhile_append_dropWhile (p := fun l : Line => l.address != a) (l := s.lines)
  unfold linkExit
  cases hd : s.lines.dropWhile (·.address != a) with
  | nil => exact Or.inl rfl
  | cons target post =>
    rw [hd] at hsplit
    have htarget : target.address = a := by
      have := List.head_dropWhile_not (fun l : Line => l.address != a) (l := s.lines) (by simp [hd])
      simpa [hd] using this
    simp only
    cases hu : Line.updateLastWhere? (fun l => l.parent == target.parent && l.method.isBranch)
        (fun l => { l with exit := some a }) (s.lines.takeWhile (·.address != a)) with
    | none => exact Or.inl (by simp only [Option.getD_none, hsplit])
    | some updated =>
      obtain ⟨pre, b, mid, hbefore, hb, hmid, rfl⟩ := Line.updateLastWhere?_split hu
      simp only [Bool.and_eq_true, beq_iff_eq] at hb
      refine Or.inr ⟨pre, b, mid, target, post, ?_, htarget, hb.1, hb.2, fun k hk hk' => ?_, ?_⟩
      · rw [← hsplit, hbefore, List.append_assoc, List.cons_append]
      · have := hmid k hk
        simp [hk'.1, hk'.2] at this
      · rw [Option.getD_some, List.append_assoc, List.cons_append]

/-- Operands are added to lines in place. -/
theorem addArgs_cases (a : Address) (m : Method) (more : List Value) : (s.addArgs a m more).2 = s ∨
    ∃ line, s.line? a = some line ∧ line.method = m ∧
      (s.addArgs a m more).2 =
        { s with lines := s.lines.map fun l => if l.address = a then l.addArgs more else l } := by
  unfold addArgs
  cases hl : s.line? a with
  | none => exact Or.inl rfl
  | some line =>
    by_cases hm : line.method = m
    · exact Or.inr ⟨line, rfl, hm, by simp only [hm, if_true]⟩
    · exact Or.inl (by simp only [hm, if_false])

theorem addArgsToLast_cases (m : Method) (more : List Value) : (s.addArgsToLast m more).2 = s ∨
    ∃ a, s.last? = some a ∧ (s.addArgsToLast m more).2 = (s.addArgs a m more).2 := by
  unfold addArgsToLast
  cases ha : s.last? with
  | none => exact Or.inl rfl
  | some a => exact Or.inr ⟨a, rfl, rfl⟩

@[simp] theorem linkExit_scopes (a : Address) : (s.linkExit a).scopes = s.scopes := by
  rcases s.linkExit_cases a with heq | ⟨_, _, _, _, _, -, -, -, -, -, heq⟩ <;> rw [heq]

@[simp] theorem addArgsToLast_scopes (m : Method) (more : List Value) :
    (s.addArgsToLast m more).2.scopes = s.scopes := by
  rcases s.addArgsToLast_cases m more with heq | ⟨a, -, heq⟩ <;> rw [heq]
  rcases s.addArgs_cases a m more with heq | ⟨_, -, -, heq⟩ <;> rw [heq]

theorem copyLine_cases (a : Address) (ln : UInt32) (parent : Option Address) :
    (s.line? a = none ∧ (s.copyLine a ln parent).2 = s) ∨
      ∃ line, s.line? a = some line ∧ (s.copyLine a ln parent).2 =
        { (s.append line.method ln (line.draftUnder parent)).2 with
          lines := s.linkedTo parent (s.fresh ln) ++
            [{ s.newLine line.method ln (line.draftUnder parent) with name := line.name }] } := by
  unfold copyLine
  cases hl : s.line? a with
  | none => exact Or.inl ⟨rfl, rfl⟩
  | some line =>
    refine Or.inr ⟨line, rfl, ?_⟩
    simp only [append_lines, Line.updateLast_concat]
    rfl

@[simp] theorem copyLine_scopes (a : Address) (ln : UInt32) (parent : Option Address) :
    (s.copyLine a ln parent).2.scopes = s.scopes := by
  unfold copyLine
  split <;> rfl

/-! ### Services that are left alone -/

theorem linkExit_services (a : Address) : (s.linkExit a).services = s.services := by
  unfold linkExit
  split <;> rfl

theorem addArgs_services (a : Address) (m : Method) (more : List Value) :
    (s.addArgs a m more).2.services = s.services := by
  rcases s.addArgs_cases a m more with heq | ⟨_, -, -, heq⟩ <;> rw [heq]

theorem addArgsToLast_services (m : Method) (more : List Value) : (s.addArgsToLast m more).2.services = s.services := by
  rcases s.addArgsToLast_cases m more with heq | ⟨a, -, heq⟩ <;> rw [heq]
  exact s.addArgs_services a m more

theorem copyLine_services (a : Address) (ln : UInt32) (parent : Option Address) :
    (s.copyLine a ln parent).2.services = s.services := by
  unfold copyLine
  split <;> rfl

theorem declareFunction_services (name : String) (a : Address) : (s.declareFunction name a).2.services = s.services := by
  unfold declareFunction
  split <;> rfl

end Store
end Flowline
