import Mathlib
import Flowline.Lowering.Program

/-! How actions end. An action that is run from a store ends with an answer or with a problem, and the
    rules below take it apart step by step. The details of a problem are listed by its code. -/

namespace Flowline

/-- The names of the details that a problem of each kind carries, in order. -/
def Code.details : Code → List String
  | .functionAlreadyDeclared => ["function_name", "line"]
  | .serviceName | .functionCallInvalidPath | .functionCallNoFunction | .variablesBackslash | .variablesDash => ["name"]
  | .unknownStatement => ["tag"]
  | .malformedTree => ["detail"]
  | _ => []

/-- The details of a problem are those that its code lists. -/
def Diagnostic.Listed (d : Diagnostic) : Prop :=
  d.context.map (·.1) = d.code.details

theorem Malformed.listed (m : Malformed) : m.diagnostic.Listed := rfl

theorem Tree.ensure_error {t : Tree} {condition : Bool} {code : Code} {context : List (String × String)}
    {d : Diagnostic} (h : t.ensure condition code context = .error d) :
    d = { code, position := t.position?, context } := by
  unfold Tree.ensure at h
  split at h
  · cases h
  · exact (Except.error.inj h).symm

theorem Tree.ensure_listed {t : Tree} {condition : Bool} {code : Code} {context : List (String × String)}
    {d : Diagnostic} (hc : context.map (·.1) = code.details) (h : t.ensure condition code context = .error d) :
    d.Listed := by
  rw [ensure_error h]
  exact hc

theorem Tree.ensure_ok {t : Tree} {condition : Bool} {code : Code} {context : List (String × String)} {u : Unit}
    (h : t.ensure condition code context = .ok u) : condition = true := by
  unfold Tree.ensure at h
  split at h
  · assumption
  · cases h

theorem Tree.child?_of_child {t c : Tree} {tag : String} (h : t.child tag = .ok c) : t.child? tag = some c := by
  unfold Tree.child at h
  split at h
  · rename_i hc
    rw [hc, Except.ok.inj h]
  · cases h

theorem except_bind_eq_ok {ε α β : Type} {x : Except ε α} {f : α → Except ε β} {b : β} :
    (x >>= f) = .ok b ↔ ∃ a, x = .ok a ∧ f a = .ok b := by
  cases x <;> simp [bind, Except.bind]

theorem forM_error {α : Type} {f : α → Except Diagnostic Unit} {xs : List α} {d : Diagnostic}
    (h : xs.forM f = .error d) : ∃ a ∈ xs, f a = .error d := by
  induction xs with
  | nil => cases h
  | cons x xs ih =>
    change (f x >>= fun _ => xs.forM f) = .error d at h
    cases hx : f x with
    | error e =>
      rw [hx] at h
      exact ⟨x, by simp, hx.trans h⟩
    | ok u =>
      rw [hx] at h
      obtain ⟨a, ha, hfa⟩ := ih h
      exact ⟨a, List.mem_cons_of_mem _ ha, hfa⟩

theorem Tree.checkNames_error {t : Tree} {d : Diagnostic} (h : t.checkNames = .error d) :
    ∃ name, d = { code := .variablesBackslash, position := t.position?, context := [("name", name)] } ∨
      d = { code := .variablesDash, position := t.position?, context := [("name", name)] } := by
  obtain ⟨name, -, he⟩ := forM_error h
  refine ⟨name, ?_⟩
  cases hs : t.ensure (!Text.has name '/') .variablesBackslash [("name", name)] with
  | error e =>
    rw [hs] at he
    cases he
    exact Or.inl (ensure_error hs)
  | ok u =>
    rw [hs] at he
    exact Or.inr (ensure_error he)

theorem Tree.checkNames_listed {t : Tree} {d : Diagnostic} (h : t.checkNames = .error d) : d.Listed := by
  obtain ⟨name, rfl | rfl⟩ := checkNames_error h <;> rfl

namespace LowerM

variable {α β : Type} {m : LowerM Store α} {f : α → LowerM Store β} {s : Store}
  {done : α → Store → Prop} {answered : β → Store → Prop} {failed : Diagnostic → Store → Prop}

/-- Run from a store, the action ends with an answer and a store as `done` says, or with a problem and a
    store as `failed` says. -/
def Ends (m : LowerM Store α) (s : Store) (done : α → Store → Prop) (failed : Diagnostic → Store → Prop) : Prop :=
  match m s with
  | .ok a t => done a t
  | .error d t => failed d t

theorem Ends.of_ok (h : m.Ends s done failed) {a : α} {t : Store} (hm : m s = .ok a t) : done a t := by
  unfold Ends at h
  rwa [hm] at h

theorem Ends.of_error (h : m.Ends s done failed) {d : Diagnostic} {t : Store} (hm : m s = .error d t) :
    failed d t := by
  unfold Ends at h
  rwa [hm] at h

theorem Ends.mono {done' : α → Store → Prop} {failed' : Diagnostic → Store → Prop} (h : m.Ends s done failed)
    (hd : ∀ a t, done a t → done' a t) (hf : ∀ d t, failed d t → failed' d t) : m.Ends s done' failed' := by
  unfold Ends at h ⊢
  split at h
  · exact hd _ _ h
  · exact hf _ _ h

theorem Ends.bind (h : m.Ends s (fun a t => (f a).Ends t answered failed) failed) :
    (m >>= f).Ends s answered failed := by
  unfold Ends at h ⊢
  show match EStateM.bind m f s with
    | .ok a t => answered a t
    | .error d t => failed d t
  unfold EStateM.bind
  cases hm : m s with
  | ok a t => simpa [hm] using h
  | error d t => simpa [hm] using h

theorem Ends.and {done' : α → Store → Prop} {failed' : Diagnostic → Store → Prop} (h : m.Ends s done failed)
    (h' : m.Ends s done' failed') : m.Ends s (fun a t => done a t ∧ done' a t) fun d t => failed d t ∧ failed' d t := by
  unfold Ends at h h' ⊢
  cases hm : m s with
  | ok a t => exact ⟨by simpa [hm] using h, by simpa [hm] using h'⟩
  | error d t => exact ⟨by simpa [hm] using h, by simpa [hm] using h'⟩

theorem ends_pure {a : α} (h : done a s) : (pure a : LowerM Store α).Ends s done failed := h

theorem ends_throw {d : Diagnostic} (h : failed d s) : (throw d : LowerM Store α).Ends s done failed := h

theorem ends_get {done : Store → Store → Prop} (h : done s s) : (get : LowerM Store Store).Ends s done failed := h

theorem ends_modify {g : Store → Store} {done : Unit → Store → Prop} (h : done () (g s)) :
    (modify g : LowerM Store Unit).Ends s done failed := h

theorem ends_modifyGet {g : Store → α × Store} (h : done (g s).1 (g s).2) :
    (modifyGet g : LowerM Store α).Ends s done failed := h

theorem ends_outputLast {names : List String} {done : Unit → Store → Prop} (h : done () (s.outputLast names)) :
    (modify (LineStore.outputLast · names) : LowerM Store Unit).Ends s done failed := h

theorem ends_declareFunction {name : String} {a : Address} {done : Option Address → Store → Prop}
    (h : done (s.declareFunction name a).1 (s.declareFunction name a).2) :
    (modifyGet (LineStore.declareFunction · name a) : LowerM Store (Option Address)).Ends s done failed := h

theorem ends_append {method : Method} {ln : UInt32} {d : Draft} {done : Address → Store → Prop}
    (h : done (s.fresh ln) (s.append method ln d).2) : (append method ln d).Ends s done failed := h

/-- A problem in reading a tree leaves the store alone. -/
theorem ends_liftM_diagnostic {x : Except Diagnostic α} (hok : ∀ a, x = .ok a → done a s)
    (herror : ∀ d, x = .error d → failed d s) : (liftM x : LowerM Store α).Ends s done failed := by
  cases x with
  | ok a => exact hok a rfl
  | error d => exact herror d rfl

theorem ends_liftM_malformed {x : Except Malformed α} (hok : ∀ a, x = .ok a → done a s)
    (herror : ∀ e : Malformed, failed e.diagnostic s) : (liftM x : LowerM Store α).Ends s done failed := by
  cases x with
  | ok a => exact hok a rfl
  | error e => exact herror e

theorem ends_liftM_missing {x : Except Missing α} (hok : ∀ a, x = .ok a → done a s)
    (herror : ∀ e : Malformed, failed e.diagnostic s) : (liftM x : LowerM Store α).Ends s done failed := by
  cases x with
  | ok a => exact hok a rfl
  | error e => exact herror (.shape e)

/-- How the lowering of a function goes on after its header: the function is declared, and then its body is lowered. -/
def lowerDeclared {σ : Type} [LineStore σ] (parts : List (Part σ)) (statement : Tree) (name : String) (header : Address)
    (parameters : List Argument) : LowerM σ Unit := do
  match ← modifyGet (LineStore.declareFunction · name header) with
  | none => pure ()
  | some previous =>
    throw {
      code := .functionAlreadyDeclared
      position := statement.position?
      context := [("function_name", name), ("line", previous.text)] }
  Part.lowerBody parts header (some (parameters.filterMap (·.name)))

end LowerM

end Flowline
