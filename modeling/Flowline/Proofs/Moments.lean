import Flowline.Proofs.Action

/-! The moments of a lowering. Lowering can be made to break off where a statement begins, and is plain
    lowering up to there (`Tree.lowerUntil_follows`), so the stores in which it breaks off are those in which
    statements begin (`Tree.Begins`). -/

namespace Flowline

open LowerM

/-- The first action runs as the second does, or is broken off in a way that `fired` allows. -/
def Follows {α : Type} (fired : Diagnostic → Store → Prop) (m m' : LowerM Store α) : Prop :=
  ∀ s, m s = m' s ∨ ∃ d u, fired d u ∧ m s = .error d u

namespace Follows

variable {α β : Type} {fired : Diagnostic → Store → Prop} {m m' : LowerM Store α} {f f' : α → LowerM Store β}

theorem refl (m : LowerM Store α) : Follows fired m m := fun _ => Or.inl rfl

theorem bind (h : Follows fired m m') (hf : ∀ a, Follows fired (f a) (f' a)) :
    Follows fired (m >>= f) (m' >>= f') := by
  intro s
  change EStateM.bind m f s = EStateM.bind m' f' s ∨ ∃ d u, fired d u ∧ EStateM.bind m f s = .error d u
  unfold EStateM.bind
  rcases h s with heq | ⟨d, u, hfired, heq⟩
  · rw [heq]
    cases m' s with
    | ok a t => exact hf a t
    | error d t => exact Or.inl rfl
  · rw [heq]
    exact Or.inr ⟨d, u, hfired, rfl⟩

theorem andThen (m : LowerM Store α) (hf : ∀ a, Follows fired (f a) (f' a)) : Follows fired (m >>= f) (m >>= f') :=
  (refl m).bind hf

end Follows

/-- Parts of the same trees, of which the first are lowered as the second are unless they are broken off. -/
def PartsFollow (fired : Diagnostic → Store → Prop) : List (Part Store) → List (Part Store) → Prop :=
  List.Forall₂ fun part part' => part.tree = part'.tree ∧ ∀ p, Follows fired (part.lower p) (part'.lower p)

section Parts

variable {fired : Diagnostic → Store → Prop} {parts parts' : List (Part Store)} (h : PartsFollow fired parts parts')

include h

theorem PartsFollow.filter (tag : String) :
    PartsFollow fired (parts.filter (·.tree.tag == tag)) (parts'.filter (·.tree.tag == tag)) :=
  List.rel_filter (fun _ _ hp => by simp only [hp.1]) h

theorem PartsFollow.find? (tag : String) :
    Option.Rel (fun part part' => ∀ p, Follows fired (part.lower p) (part'.lower p))
      (parts.find? (·.tree.tag == tag)) (parts'.find? (·.tree.tag == tag)) := by
  induction h with
  | nil => exact .none
  | cons hp _ ih =>
    rw [List.find?_cons, List.find?_cons, hp.1]
    split
    · exact .some hp.2
    · exact ih

theorem lowerAll_follows (p : Option Address) : Follows fired (Part.lowerAll parts p) (Part.lowerAll parts' p) := by
  induction h with
  | nil => exact .refl _
  | cons hp _ ih => exact (hp.2 p).bind fun _ => ih

theorem lowerTagged_follows (tag : String) (p : Option Address) :
    Follows fired (Part.lowerTagged parts tag p) (Part.lowerTagged parts' tag p) :=
  lowerAll_follows (h.filter tag) p

theorem lowerFirst_follows (tag : String) (p : Option Address) :
    Follows fired (Part.lowerFirst parts tag p) (Part.lowerFirst parts' tag p) := by
  unfold Part.lowerFirst
  have hfind := h.find? tag
  generalize parts.find? (·.tree.tag == tag) = found, parts'.find? (·.tree.tag == tag) = found' at hfind
  cases hfind with
  | none => exact .refl _
  | some hp => exact hp p

theorem lowerBody_follows (header : Address) (output : Option (List String)) :
    Follows fired (Part.lowerBody parts header output) (Part.lowerBody parts' header output) := by
  unfold Part.lowerBody
  have hfind := h.find? "nested_block"
  generalize parts.find? (·.tree.tag == "nested_block") = found,
    parts'.find? (·.tree.tag == "nested_block") = found' at hfind
  cases hfind with
  | none => exact .refl _
  | some hp => exact .andThen _ fun _ => (hp _).bind fun _ => .refl _

theorem lowerService_follows (t : Tree) (p : Option Address) :
    Follows fired (lowerService t parts p) (lowerService t parts' p) := by
  unfold lowerService
  split
  all_goals
    refine .andThen _ fun service => .andThen _ fun targets => ?_
    split
    · exact .andThen _ fun header => .andThen _ fun store => lowerBody_follows h _ _
    · exact .andThen _ fun call => .andThen _ fun ln => .andThen _ fun header => lowerBody_follows h _ _

theorem lowerMutation_follows (t : Tree) (p : Option Address) :
    Follows fired (lowerMutation t parts p) (lowerMutation t parts' p) := by
  unfold lowerMutation
  split <;> exact .andThen _ fun mutated => .andThen _ fun header => lowerBody_follows h _ _

theorem lowerWhen_follows (t : Tree) (p : Option Address) :
    Follows fired (lowerWhen t parts p) (lowerWhen t parts' p) := by
  unfold lowerWhen
  refine .andThen _ fun ln => ?_
  split
  · exact .andThen _ fun call => .andThen _ fun header => lowerBody_follows h _ _
  · exact .andThen _ fun path => .andThen _ fun handle => .andThen _ fun header => lowerBody_follows h _ _

theorem lowerIf_follows (t : Tree) (p : Option Address) :
    Follows fired (lowerIf t parts p) (lowerIf t parts' p) := by
  refine .andThen _ fun st => .andThen _ fun operand => .andThen _ fun ln => .andThen _ fun header => ?_
  exact (lowerBody_follows h _ _).bind fun _ => (lowerTagged_follows h _ p).bind fun _ => lowerFirst_follows h _ p

theorem lowerElseIf_follows (t : Tree) (p : Option Address) :
    Follows fired (lowerElseIf t parts p) (lowerElseIf t parts' p) := by
  refine .andThen _ fun st => .andThen _ fun operand => .andThen _ fun ln => .andThen _ fun header => ?_
  exact .andThen _ fun _ => lowerBody_follows h _ _

theorem lowerLastBranch_follows (m : Method) (t : Tree) (p : Option Address) :
    Follows fired (lowerLastBranch m t parts p) (lowerLastBranch m t parts' p) :=
  .andThen _ fun _ => .andThen _ fun _ => .andThen _ fun _ => lowerBody_follows h _ _

theorem lowerForeach_follows (t : Tree) (p : Option Address) :
    Follows fired (lowerForeach t parts p) (lowerForeach t parts' p) := by
  unfold lowerForeach
  refine .andThen _ fun st => ?_
  split <;> refine .andThen _ fun subject => .andThen _ fun value => .andThen _ fun ln => ?_
  all_goals exact .andThen _ fun header => lowerBody_follows h _ _

theorem lowerWhile_follows (t : Tree) (p : Option Address) :
    Follows fired (lowerWhile t parts p) (lowerWhile t parts' p) := by
  refine .andThen _ fun st => .andThen _ fun ln => .andThen _ fun operand => .andThen _ fun header => ?_
  exact (lowerBody_follows h _ _).bind fun _ => .refl _

theorem lowerTry_follows (t : Tree) (p : Option Address) :
    Follows fired (lowerTry t parts p) (lowerTry t parts' p) := by
  refine .andThen _ fun ln => .andThen _ fun header => (lowerBody_follows h _ _).bind fun _ => ?_
  exact (lowerFirst_follows h _ p).bind fun _ => lowerFirst_follows h _ p

theorem lowerCatch_follows (t : Tree) (p : Option Address) :
    Follows fired (lowerCatch t parts p) (lowerCatch t parts' p) := by
  refine .andThen _ fun st => .andThen _ fun ln => .andThen _ fun header => ?_
  exact .andThen _ fun _ => lowerBody_follows h _ _

theorem lowerFunction_follows (t : Tree) (p : Option Address) :
    Follows fired (lowerFunction t parts p) (lowerFunction t parts' p) := by
  unfold lowerFunction
  refine .andThen _ fun st => .andThen _ fun name => .andThen _ fun parameters => .andThen _ fun returns => ?_
  refine .andThen _ fun ln => .andThen _ fun header => ?_
  cases returns with
  | none =>
    refine .andThen _ fun previous => ?_
    cases previous with
    | none => exact lowerBody_follows h _ _
    | some _ => exact .andThen _ fun _ => lowerBody_follows h _ _
  | some names =>
    refine .andThen _ fun _ => .andThen _ fun previous => ?_
    cases previous with
    | none => exact lowerBody_follows h _ _
    | some _ => exact .andThen _ fun _ => lowerBody_follows h _ _

/-- A statement follows as its parts do. -/
theorem statement_follows (t : Tree) (p : Option Address) :
    Follows fired (statement t parts p) (statement t parts' p) := by
  unfold statement
  cases Statement.ofTag? t.tag with
  | none => exact .refl _
  | some kind =>
    cases kind with
    | container => exact lowerAll_follows h p
    | service => exact lowerService_follows h t p
    | mutation => exact lowerMutation_follows h t p
    | when => exact lowerWhen_follows h t p
    | if_ => exact lowerIf_follows h t p
    | elseIf => exact lowerElseIf_follows h t p
    | else_ => exact lowerLastBranch_follows h .else_ t p
    | foreach => exact lowerForeach_follows h t p
    | while_ => exact lowerWhile_follows h t p
    | try_ => exact lowerTry_follows h t p
    | catch_ => exact lowerCatch_follows h t p
    | finally_ => exact lowerLastBranch_follows h .finally_ t p
    | function => exact lowerFunction_follows h t p
    -- The others have no parts.
    | _ => exact .refl _

end Parts

namespace Tree

mutual

/-- Lowers a statement under a parent, but breaks off with a report wherever a statement is about to be
    lowered of which `stop` holds. -/
def lowerUntil (stop : Tree → Option Address → Store → Bool) (report : Tree → Option Address → Diagnostic) :
    Tree → Option Address → LowerM Store Unit
  | ⟨tag, children⟩, parent => do
    if stop ⟨tag, children⟩ parent (← get) then throw (report ⟨tag, children⟩ parent)
    else statement ⟨tag, children⟩ (partsUntil stop report children) parent

/-- The trees among these children, with lowerings that break off. -/
def partsUntil (stop : Tree → Option Address → Store → Bool) (report : Tree → Option Address → Diagnostic) :
    List Child → List (Part Store)
  | [] => []
  | .token _ :: rest => partsUntil stop report rest
  | .tree t :: rest => ⟨t, t.lowerUntil stop report⟩ :: partsUntil stop report rest

end

variable {stop : Tree → Option Address → Store → Bool} {report : Tree → Option Address → Diagnostic}

mutual

/-- Lowering that may break off is lowering, or breaks off where a statement begins of which `stop` holds. -/
theorem lowerUntil_follows : ∀ (t : Tree) (p : Option Address),
    Follows (fun d u => ∃ c q, stop c q u = true ∧ d = report c q) (t.lowerUntil stop report p) (t.lower p)
  | ⟨tag, children⟩, p => by
    intro s
    have hrun : lowerUntil stop report ⟨tag, children⟩ p s =
        (if stop ⟨tag, children⟩ p s then throw (report ⟨tag, children⟩ p)
          else statement ⟨tag, children⟩ (partsUntil stop report children) p : LowerM Store Unit) s := by
      rw [lowerUntil]
      rfl
    rw [hrun, lower]
    by_cases hs : stop ⟨tag, children⟩ p s = true
    · rw [if_pos hs]
      exact Or.inr ⟨_, s, ⟨_, p, hs, rfl⟩, rfl⟩
    · rw [if_neg hs]
      exact statement_follows (partsUntil_follow children) _ p s

theorem partsUntil_follow : ∀ children : List Child,
    PartsFollow (fun d u => ∃ c q, stop c q u = true ∧ d = report c q) (partsUntil stop report children)
      (partsOf children)
  | [] => .nil
  | .token _ :: rest => by
    rw [partsUntil, partsOf]
    exact partsUntil_follow rest
  | .tree t :: rest => by
    rw [partsUntil, partsOf]
    exact .cons ⟨rfl, lowerUntil_follows t⟩ (partsUntil_follow rest)

end

/-- Lowering that never breaks off by itself is lowering. -/
theorem lowerUntil_never (report : Tree → Option Address → Diagnostic) (t : Tree) :
    t.lowerUntil (fun _ _ _ => false) report = t.lower := by
  funext p s
  rcases lowerUntil_follows t p s with heq | ⟨_, _, ⟨_, _, hstop, -⟩, -⟩
  · exact heq
  · cases hstop

/-- While the program `t` is lowered, the lowering of `c` under `q` begins in the store `u`: lowering that is
    made to break off there does so with that store, whatever it reports. -/
def Begins (t c : Tree) (q : Option Address) (u : Store) : Prop :=
  ∃ stop, ∀ report, t.lowerUntil stop report none {} = .error (report c q) u

end Tree

end Flowline
