import Flowline.Session
import Flowline.Proofs.Growth

/-! Stores that a session reaches. Whatever the steps are, and whether they fail or not, the links of the
    store stay whole (`Step.runAll_linked`). -/

namespace Flowline

/-- Some session leads from the empty store to this one. -/
def Store.Reachable (s : Store) : Prop :=
  ∃ steps, (Step.runAll {} steps).2 = s

section Steps

variable {s : Store}

/-- However an action ends that lowers statements, the store after it is that of a derivation. -/
theorem Sound.lowers {breaks : Diagnostic → Option Address → Store → Prop} {f : Option Address → LowerM Store Unit}
    (hf : Sound breaks f) (p : Option Address) (s : Store) : ∃ o, Lowers p s o (Reply.ofLowering (f p s)).2 := by
  have hends := hf p s
  cases hrun : f p s with
  | ok x t => exact ⟨.done, hends.of_ok hrun⟩
  | error d t =>
    obtain ⟨q, -, hlowers⟩ := hends.of_error hrun
    exact ⟨.broken q, hlowers⟩

theorem Sound.linked {breaks : Diagnostic → Option Address → Store → Prop} {f : Option Address → LowerM Store Unit}
    (hf : Sound breaks f) (p : Option Address) (hs : s.Linked) : (Reply.ofLowering (f p s)).2.Linked := by
  obtain ⟨o, hlowers⟩ := hf.lowers p s
  exact hlowers.linked hs

theorem Sound.grounded {breaks : Diagnostic → Option Address → Store → Prop} {f : Option Address → LowerM Store Unit}
    (hf : Sound breaks f) (p : Option Address) (hs : s.Linked) (hg : s.Grounded) (hp : s.Has p) :
    (Reply.ofLowering (f p s)).2.Grounded := by
  obtain ⟨o, hlowers⟩ := hf.lowers p s
  exact (hlowers.grows hs hg hp).grounded hg hp

theorem Tree.lowerChildren_sound (t : Tree) : Sound (fun d _ _ => d.Listed) t.lowerChildren := by
  refine lowerAll_sound fun part hpart => ?_
  rw [Tree.partsOf_eq] at hpart
  obtain ⟨c, -, rfl⟩ := List.mem_map.mp hpart
  exact c.lower_sound

theorem Store.Linked.invoke (hs : s.Linked) (m : Method) (ln : UInt32) (r : Request) (p : Option Address) :
    (Reply.ofInvocation s (s.invoke m ln r p)).2.Linked := by
  unfold Store.invoke
  split
  · exact hs
  · refine Store.Linked.append ?_ _ _ _
    split
    · exact hs
    · exact hs.of_lines (s.registerService_lines r.name)

/-- A step keeps the links whole. -/
theorem Step.run_linked (step : Step) (hs : s.Linked) : (step.run s).2.Linked := by
  cases step with
  | lower tree parent => exact tree.lower_sound.linked parent hs
  | lowerChildren tree parent => exact tree.lowerChildren_sound.linked parent hs
  | append method ln fields => exact hs.append method ln fields
  | execute ln call parent => exact hs.invoke _ ln call parent
  | listen ln call parent => exact hs.invoke .when ln call parent
  | addArgs address expected more => exact hs.of_sameLinks (s.sameLinks_addArgs address expected more)
  | nameLast path => exact hs.nameLast path
  | outputLast names => exact hs.outputLast names
  | openScope | closeScope | importModule => exact hs.of_lines rfl
  | linkExit address => exact hs.linkExit address
  | copyLine address ln parent => exact hs.copyLine address ln parent
  | declareFunction name address => exact hs.of_lines (s.declareFunction_lines name address)
  | line | isValue | isHandle | function | importsModule | services => exact hs

/-- A run keeps the links whole, at its end and after each of its steps. -/
theorem Step.runAll_linked (steps : List Step) (hs : s.Linked) :
    (∀ x ∈ (Step.runAll s steps).1, x.2.Linked) ∧ (Step.runAll s steps).2.Linked := by
  induction steps generalizing s with
  | nil => exact ⟨by simp [Step.runAll, Step.runAllOn], hs⟩
  | cons step rest ih =>
    have hstep := step.run_linked hs
    obtain ⟨heach, hend⟩ := ih hstep
    refine ⟨fun x hx => ?_, hend⟩
    rcases List.mem_cons.mp hx with rfl | hx
    · exact hstep
    · exact heach x hx

end Steps

theorem Store.Reachable.linked {s : Store} (h : s.Reachable) : s.Linked := by
  obtain ⟨steps, rfl⟩ := h
  exact (Step.runAll_linked steps Store.linked_empty).2

end Flowline
