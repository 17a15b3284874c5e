import Flowline.Proofs.Grammar
import Flowline.Proofs.Moments

/-! The first problem ends a lowering. Two lowerings that may break off, each in its own way, run alike up to
    where one of them does. So a statement that begins is one of the program, and if it fails, the program
    fails with its problem. A lowering that is made to break off where no statement begins is lowering
    (`Tree.lowerUntil_begins`), so what holds wherever a statement begins may be used in a run. -/

namespace Flowline

namespace Tree

variable {stop stop' : Tree → Option Address → Store → Bool} {report report' : Tree → Option Address → Diagnostic}
  {fired : Diagnostic → Store → Prop} {t c : Tree} {q : Option Address} {u v : Store} {d : Diagnostic}

theorem partsUntil_eq (children : List Child) :
    partsUntil stop report children = (children.filterMap Child.tree?).map fun c => ⟨c, c.lowerUntil stop report⟩ := by
  induction children with
  | nil => rfl
  | cons child rest ih => cases child <;> simp [partsUntil, Child.tree?, ih, List.filterMap_cons]

theorem lowerUntil_run (t : Tree) (p : Option Address) (s : Store) :
    t.lowerUntil stop report p s =
      if stop t p s then .error (report t p) s
      else LowerM.statement t (t.subtrees.map fun c => ⟨c, c.lowerUntil stop report⟩) p s := by
  obtain ⟨tag, children⟩ := t
  have hrun : lowerUntil stop report ⟨tag, children⟩ p s =
      (if stop ⟨tag, children⟩ p s then throw (report ⟨tag, children⟩ p)
        else LowerM.statement ⟨tag, children⟩ (partsUntil stop report children) p : LowerM Store Unit) s := by
    rw [lowerUntil]
    rfl
  rw [hrun, partsUntil_eq]
  split <;> rfl

/-- Lowerings that may break off run alike if they do wherever one of them is about to. -/
theorem lowerUntil_meet (t : Tree)
    (hmeet : ∀ c ∈ t.descendants, ∀ q u, stop c q u = true ∨ stop' c q u = true →
      c.lowerUntil stop report q u = c.lowerUntil stop' report' q u ∨
        ∃ d v, fired d v ∧ c.lowerUntil stop report q u = .error d v) (p : Option Address) :
    Follows fired (t.lowerUntil stop report p) (t.lowerUntil stop' report' p) := by
  induction t using subtreeInduction generalizing p with
  | step t ih =>
    intro s
    by_cases hs : stop t p s = true ∨ stop' t p s = true
    · exact hmeet t t.self_mem_descendants p s hs
    · obtain ⟨hs, hs'⟩ := not_or.mp hs
      rw [lowerUntil_run, lowerUntil_run, if_neg hs, if_neg hs']
      refine statement_follows ?_ t p s
      refine List.forall₂_map_left_iff.mpr (List.forall₂_map_right_iff.mpr (List.forall₂_same.mpr fun c hc => ?_))
      exact ⟨rfl, ih c hc fun c' hc' => hmeet c' (mem_descendants.mpr (Or.inr ⟨c, hc, hc'⟩))⟩

theorem lowerUntil_of_stop (h : stop c q u = true) : c.lowerUntil stop report q u = .error (report c q) u := by
  rw [lowerUntil_run, if_pos h]

/-- Lowering that may break off is lowering, or breaks off at a statement of the tree. -/
theorem lowerUntil_fires (stop : Tree → Option Address → Store → Bool) (report : Tree → Option Address → Diagnostic)
    (t : Tree) (p : Option Address) :
    Follows (fun d u => ∃ c ∈ t.descendants, ∃ q, stop c q u = true ∧ d = report c q) (t.lowerUntil stop report p)
      (t.lower p) := by
  rw [← lowerUntil_never report t]
  refine lowerUntil_meet t (fun c hc q u hs => Or.inr ?_) p
  have hstop : stop c q u = true := by simpa using hs
  exact ⟨_, u, ⟨c, hc, q, hstop, rfl⟩, lowerUntil_of_stop hstop⟩

/-- The context of a problem tells it from the problem with more context. -/
theorem ne_of_more_context (d : Diagnostic) : d ≠ { d with context := ("", "") :: d.context } := by
  intro h
  have hlength := congrArg (·.context.length) h
  simp at hlength

open Classical in
/-- Reports one problem for `c` under `q`, and another one for all else. -/
noncomputable def reportAt (c : Tree) (q : Option Address) (d : Diagnostic) : Tree → Option Address → Diagnostic :=
  fun c' q' => if c' = c ∧ q' = q then d else { d with context := ("", "") :: d.context }

theorem reportAt_self (c : Tree) (q : Option Address) (d : Diagnostic) : reportAt c q d c q = d :=
  if_pos ⟨rfl, rfl⟩

theorem eq_of_reportAt {c' : Tree} {q' : Option Address} (h : d = reportAt c q d c' q') : c' = c ∧ q' = q := by
  by_contra hne
  rw [reportAt, if_neg hne] at h
  exact ne_of_more_context d h

open Classical in
/-- Breaks off at one moment alone. -/
noncomputable def stopAt (c : Tree) (q : Option Address) (u : Store) : Tree → Option Address → Store → Bool :=
  fun c' q' u' => decide (c' = c ∧ q' = q ∧ u' = u)

theorem stopAt_iff {c' : Tree} {q' : Option Address} {u' : Store} :
    stopAt c q u c' q' u' = true ↔ c' = c ∧ q' = q ∧ u' = u := by
  simp [stopAt]

/-- Breaking off where `stop` holds and breaking off at one such moment come to the same, unless the first happens
    at another moment. -/
theorem lowerUntil_stopAt (hstop : stop c q u = true) (report : Tree → Option Address → Diagnostic) (t : Tree)
    (p : Option Address) :
    Follows (fun d v => ∃ x ∈ t.descendants, ∃ r, ¬(x = c ∧ r = q ∧ v = u) ∧ d = report x r)
      (t.lowerUntil stop report p) (t.lowerUntil (stopAt c q u) report p) := by
  refine lowerUntil_meet t (fun x hmem r v hs => ?_) p
  by_cases hx : x = c ∧ r = q ∧ v = u
  · obtain ⟨rfl, rfl, rfl⟩ := hx
    exact Or.inl (by rw [lowerUntil_of_stop hstop, lowerUntil_of_stop (stopAt_iff.mpr ⟨rfl, rfl, rfl⟩)])
  · have hs : stop x r v = true := hs.resolve_right fun h => hx (stopAt_iff.mp h)
    exact Or.inr ⟨_, v, ⟨x, hmem, r, hx, rfl⟩, lowerUntil_of_stop hs⟩

namespace Begins

/-- Where a statement begins, lowering is made to break off, unless it fails there by itself. -/
theorem stops (hb : t.Begins c q u) (d : Diagnostic) :
    t.lower none {} = .error d u ∨
      c ∈ t.descendants ∧ ∃ stop, stop c q u = true ∧ t.lowerUntil stop (reportAt c q d) none {} = .error d u := by
  obtain ⟨stop, hrun⟩ := hb
  have hrun := hrun (reportAt c q d)
  rw [reportAt_self] at hrun
  rcases lowerUntil_fires stop (reportAt c q d) t none {} with heq | ⟨d', u', ⟨c', hc', q', hstop, hd⟩, heq⟩
  · exact Or.inl (heq.symm.trans hrun)
  · rw [hrun] at heq
    obtain ⟨rfl, rfl⟩ : d = d' ∧ u = u' := by simpa using heq
    obtain ⟨rfl, rfl⟩ := eq_of_reportAt hd
    exact Or.inr ⟨hc', stop, hstop, hrun⟩

theorem mem_descendants (hb : t.Begins c q u) : c ∈ t.descendants := by
  rcases hb.stops { code := .malformedTree } with h | ⟨h, -⟩
  · rcases hb.stops { code := .unknownStatement } with h' | ⟨h', -⟩
    · -- No lowering fails with two different problems.
      rw [h] at h'
      cases h'
    · exact h'
  · exact h

theorem stops_alone (hb : t.Begins c q u) (d : Diagnostic) :
    t.lower none {} = .error d u ∨ t.lowerUntil (stopAt c q u) (reportAt c q d) none {} = .error d u := by
  refine (hb.stops d).imp_right ?_
  rintro ⟨-, stop, hstop, hrun⟩
  rcases lowerUntil_stopAt hstop (reportAt c q d) t none {} with heq | ⟨e, w, ⟨x, -, r, hne, he⟩, heq⟩
  · rw [← heq, hrun]
  · rw [hrun] at heq
    obtain ⟨rfl, rfl⟩ : d = e ∧ u = w := by simpa using heq
    obtain ⟨rfl, rfl⟩ := eq_of_reportAt he
    exact absurd ⟨rfl, rfl, rfl⟩ hne

/-- Whether lowering breaks off at a moment does not depend on what is reported there. -/
theorem of_stopAt (h : t.lowerUntil (stopAt c q u) report none {} ≠ t.lower none {}) : t.Begins c q u := by
  refine ⟨stopAt c q u, fun report' => ?_⟩
  have hmeet : Follows (fun d v => d = report' c q ∧ v = u) (t.lowerUntil (stopAt c q u) report' none)
      (t.lowerUntil (stopAt c q u) report none) := by
    refine lowerUntil_meet t (fun x _ r v hs => Or.inr ⟨report' x r, v, ?_⟩) none
    have hs := or_self_iff.mp hs
    obtain ⟨rfl, rfl, rfl⟩ := stopAt_iff.mp hs
    exact ⟨⟨rfl, rfl⟩, lowerUntil_of_stop hs⟩
  rcases hmeet {} with heq | ⟨_, _, ⟨rfl, rfl⟩, heq⟩
  · rcases lowerUntil_follows t none {} with hrun | ⟨_, _, ⟨x, r, hstop, rfl⟩, hrun⟩
    · exact absurd (heq.symm.trans hrun) h
    · obtain ⟨rfl, rfl, rfl⟩ := stopAt_iff.mp hstop
      exact hrun
  · exact heq

/-- A program fails with the problem of the statement that fails. -/
theorem fails (hb : t.Begins c q u) (h : c.lower q u = .error d v) : compile t = .error d := by
  suffices hlower : ∃ w, t.lower none ({} : Store) = .error d w by
    obtain ⟨w, hw⟩ := hlower
    rw [compile, hw]
  rcases hb.stops_alone d with hrun | hrun
  · exact ⟨u, hrun⟩
  have hmeet : Follows (fun e _ => e = d) (t.lowerUntil (fun _ _ _ => false) (reportAt c q d) none)
      (t.lowerUntil (stopAt c q u) (reportAt c q d) none) := by
    refine lowerUntil_meet t (fun x _ r w hs => Or.inr ⟨d, v, rfl, ?_⟩) none
    obtain ⟨rfl, rfl, rfl⟩ := stopAt_iff.mp (hs.resolve_left (by simp))
    rw [lowerUntil_never, h]
  rw [lowerUntil_never] at hmeet
  rcases hmeet {} with heq | ⟨e, w, rfl, heq⟩
  · exact ⟨u, heq.trans hrun⟩
  · exact ⟨w, heq⟩

end Begins

open Classical in
/-- Reports that tell the statements of a tree apart. -/
noncomputable def reportOf (t c : Tree) (q : Option Address) : Diagnostic where
  code := .malformedTree
  context := q.elim ("", "") (fun a => ("parent", a.text)) :: List.replicate (t.descendants.idxOf c) ("", "")

open Classical in
theorem eq_of_reportOf {c' : Tree} {q' : Option Address} (hc : c ∈ t.descendants)
    (h : reportOf t c q = reportOf t c' q') : c' = c ∧ q' = q := by
  obtain ⟨hparent, hindex⟩ := List.cons.inj (congrArg Diagnostic.context h)
  constructor
  · have hlength := congrArg List.length hindex
    rw [List.length_replicate, List.length_replicate] at hlength
    exact ((List.idxOf_inj hc).mp hlength).symm
  · rcases q with _ | ⟨⟨a⟩⟩ <;> rcases q' with _ | ⟨⟨b⟩⟩ <;> simp_all

/-- Lowering that may break off is lowering, or some statement begins at which it does. -/
theorem lowerUntil_begins (stop : Tree → Option Address → Store → Bool) (t : Tree) :
    (∃ report, t.lowerUntil stop report none {} = t.lower none {}) ∨
      ∃ c q u, t.Begins c q u ∧ stop c q u = true := by
  by_contra hnot
  obtain ⟨hnever, hnone⟩ := not_or.mp hnot
  rcases lowerUntil_fires stop (reportOf t) t none {} with heq | ⟨_, u, ⟨c, hc, q, hstop, rfl⟩, hrun⟩
  · exact hnever ⟨_, heq⟩
  · rcases lowerUntil_stopAt hstop (reportOf t) t none {} with halone | ⟨_, w, ⟨x, hx, r, hne, rfl⟩, halone⟩
    · have hbegins : t.lowerUntil (stopAt c q u) (reportOf t) none {} ≠ t.lower none {} := fun heq =>
        hnever ⟨_, halone.trans heq⟩
      exact hnone ⟨c, q, u, .of_stopAt hbegins, hstop⟩
    · rw [hrun] at halone
      obtain ⟨hd, rfl⟩ : reportOf t c q = reportOf t x r ∧ u = w := by simpa using halone
      obtain ⟨rfl, rfl⟩ := eq_of_reportOf hc hd
      exact hne ⟨rfl, rfl, rfl⟩

end Tree

end Flowline
