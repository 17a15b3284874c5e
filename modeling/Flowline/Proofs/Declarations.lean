import Flowline.Proofs.Changes
import Flowline.Proofs.Failing

/-! The registry of functions. It lists the functions that the lines declare, each name once, however deep the
    declarations stand. A second declaration of a name is refused, with the address of the first. -/

namespace Flowline

/-- Whether the line declares the function with this name. -/
def Line.declares (l : Line) (name : String) : Bool :=
  l.method = .function ∧ l.function = some name

/-- The address of the first line that declares the function. -/
def declaredAt? (ls : List Line) (name : String) : Option Address :=
  (ls.find? (·.declares name)).map (·.address)

section First

variable {p : Option Address} {ls ls' : List Line} {name : String}

theorem declaredAt?_kept (h : List.Forall₂ (Line.Kept p) ls ls') (name : String) :
    declaredAt? ls' name = declaredAt? ls name := by
  unfold declaredAt?
  induction h with
  | nil => rfl
  | @cons l l' _ _ hr _ ih =>
    have hdeclares : l'.declares name = l.declares name := by
      rw [hr.rest]
      rfl
    rw [List.find?_cons, List.find?_cons, hdeclares]
    cases l.declares name
    · exact ih
    · exact congrArg some hr.address

theorem declaredAt?_concat (ls : List Line) (k : Line) (name : String) :
    declaredAt? (ls ++ [k]) name = (declaredAt? ls name).or (if k.declares name then some k.address else none) := by
  unfold declaredAt?
  rw [List.find?_append, Option.map_or, List.find?_singleton]
  split <;> rfl

end First

theorem declares_declaration (s : Store) (p : Option Address) (ln : UInt32) (name : String)
    (parameters : List Argument) (returns : Option (List String)) (n : String) :
    (s.newLine .function ln (.declaration name parameters returns p)).declares n = decide (name = n) := by
  simp [Line.declares, Store.newLine, Draft.line, Draft.declaration]

/-- The registry of functions goes by the lines: each `function` line has a name, each name is registered once,
    at its first declaration. -/
structure Store.Catalogued (s : Store) : Prop where
  named : ∀ l ∈ s.lines, l.method = .function → l.function.isSome = true
  first : ∀ name, s.function? name = declaredAt? s.lines name
  distinct : (s.functions.map (·.1)).Nodup

namespace Store.Catalogued

variable {p : Option Address} {s t : Store} {old : List Line} {k : Line}

theorem empty : ({} : Store).Catalogued where
  named l hl := by cases hl
  first _ := rfl
  distinct := .nil

theorem named_concat (hs : s.Catalogued) (hl : t.lines = old ++ [k]) (hold : List.Forall₂ (Line.Kept p) s.lines old)
    (hk : k.method = .function → k.function.isSome = true) :
    ∀ l ∈ t.lines, l.method = .function → l.function.isSome = true := by
  intro l hmem hm
  rw [hl] at hmem
  rcases List.mem_append.mp hmem with hmem | hmem
  · obtain ⟨l', hl', hr⟩ := forall₂_mem_right hold l hmem
    have := hs.named l' hl' (hr.method ▸ hm)
    rwa [hr.rest]
  · rw [List.mem_singleton.mp hmem] at hm ⊢
    exact hk hm

theorem concat (hs : s.Catalogued) (hl : t.lines = old ++ [k]) (hold : List.Forall₂ (Line.Kept p) s.lines old)
    (hf : t.functions = s.functions) (hk : k.method ≠ .function) : t.Catalogued where
  named := hs.named_concat hl hold fun hm => absurd hm hk
  first name := by
    rw [hl, declaredAt?_concat, declaredAt?_kept hold, ← hs.first, Store.function?, Store.function?, hf]
    simp [Line.declares, hk]
  distinct := hf ▸ hs.distinct

theorem changes (h : s.Changes t) (hs : s.Catalogued) : t.Catalogued := by
  cases h with
  | amend hl hf _ =>
    refine ⟨fun l hmem hm => ?_, fun name => ?_, hf ▸ hs.distinct⟩
    · obtain ⟨l', hl', hr⟩ := forall₂_mem_right hl l hmem
      have := hs.named l' hl' (hr.method ▸ hm)
      rwa [hr.rest]
    · rw [declaredAt?_kept hl, ← hs.first, Store.function?, Store.function?, hf]
  | emit _ he hl hf _ => exact hs.concat hl (s.kept_linkedTo _ _) hf he.ne_function
  | @copy _ _ _ line _ _ hm hl hf _ =>
    have hne : line.method ≠ .function := by
      intro hfunction
      rw [hfunction] at hm
      cases hm
    exact hs.concat hl (s.kept_linkedTo _ _) hf hne
  | @declare p _ ln name parameters returns _ hn hl hf _ =>
    refine ⟨hs.named_concat hl (s.kept_linkedTo _ _) fun _ => rfl, fun n => ?_, ?_⟩
    · rw [hl, declaredAt?_concat, declaredAt?_kept (s.kept_linkedTo _ _), ← hs.first, declares_declaration,
        Store.function?, hf, List.lookup_append, ← Store.function?]
      rcases eq_or_ne n name with rfl | hname
      · simp
      · simp [hname.symm, beq_false_of_ne hname, List.lookup_cons]
    · have hnew : name ∉ s.functions.map (·.1) := by
        intro hmem
        obtain ⟨f, hregistered, rfl⟩ := List.mem_map.mp hmem
        have hne := List.lookup_eq_none_iff.mp hn f hregistered
        simp at hne
      rw [hf, List.map_append, List.nodup_append]
      refine ⟨hs.distinct, List.nodup_singleton _, fun a ha b hb hab => ?_⟩
      rw [hab, List.mem_singleton.mp hb] at ha
      exact hnew ha
  | @redeclare p _ ln name parameters returns previous _ hn hl hf _ =>
    refine ⟨hs.named_concat hl (s.kept_linkedTo _ _) fun _ => rfl, fun n => ?_, hf ▸ hs.distinct⟩
    rw [hl, declaredAt?_concat, declaredAt?_kept (s.kept_linkedTo _ _), ← hs.first, declares_declaration,
      Store.function?, hf, ← Store.function?]
    rcases eq_or_ne n name with rfl | hname
    · simp [hn]
    · simp [hname.symm]

end Store.Catalogued

/-! ### Declaring a function again -/

section Redeclared

open LowerM

variable {t statement : Tree} {token : Token} {q : Option Address} {u : Store} {previous : Address}

theorem Tree.line_of_nameToken (h : t.nameToken = .ok token) : ∃ ln, t.line = .ok ln := by
  unfold Tree.nameToken at h
  split at h
  · rename_i name hname
    obtain ⟨c, hc, htoken⟩ := List.mem_filterMap.mp (List.mem_of_find?_eq_some hname)
    have hposition : t.position?.isSome = true := by
      obtain ⟨tag, children⟩ := t
      refine Tree.positionOfChildren?_isSome hc ?_
      rintro v rfl
      cases htoken
    obtain ⟨position, hposition⟩ := Option.isSome_iff_exists.mp hposition
    exact ⟨position.line, by rw [Tree.line, hposition]⟩
  · cases h

namespace LowerM

variable {α : Type} {m : LowerM Store α} {s : Store} {done : α → Store → Prop} {failed : Diagnostic → Store → Prop}

theorem ends_read {x : Except Malformed α} (hok : ∀ a, x = .ok a → done a s)
    (herror : ∀ e, x = .error e → failed e.diagnostic s) : (liftM x : LowerM Store α).Ends s done failed := by
  cases x with
  | ok a => exact hok a rfl
  | error e => exact herror e rfl

theorem ends_lookUp {x : Except Missing α} (hok : ∀ a, x = .ok a → done a s)
    (herror : ∀ e, x = .error e → failed (Malformed.shape e).diagnostic s) :
    (liftM x : LowerM Store α).Ends s done failed := by
  cases x with
  | ok a => exact hok a rfl
  | error e => exact herror e rfl

theorem Ends.fails (h : m.Ends s (fun _ _ => False) failed) : ∃ d t, m s = .error d t ∧ failed d t := by
  cases hm : m s with
  | ok a t => exact (h.of_ok hm).elim
  | error d t => exact ⟨d, t, rfl, h.of_error hm⟩

theorem ends_redeclareFunction {name : String} {a : Address} {done : Option Address → Store → Prop}
    (h : s.function? name = some previous) (hdone : done (some previous) s) :
    (modifyGet (LineStore.declareFunction · name a) : LowerM Store (Option Address)).Ends s done failed := by
  refine ends_declareFunction ?_
  rwa [Store.declareFunction, h]

/-- A function that is declared already is not declared again. Unless the declaration cannot be read, the problem
    tells where the function is declared. -/
theorem lowerFunction_redeclared (parts : List (Part Store)) (hs : t.child "function_statement" = .ok statement)
    (ht : statement.nameToken = .ok token) (hu : u.function? token.value = some previous) :
    (lowerFunction t parts q).Ends u (fun _ _ => False) fun d _ =>
      (∃ ps, statement.readParameters = .ok ps) → (∃ rs, readReturns statement = .ok rs) →
        d = { code := .functionAlreadyDeclared, position := statement.position?,
              context := [("function_name", token.value), ("line", previous.text)] } := by
  unfold lowerFunction
  refine Ends.bind (ends_lookUp (fun st hst => ?_) fun e he => by rw [hs] at he; cases he)
  obtain rfl : statement = st := Except.ok.inj (hs.symm.trans hst)
  refine Ends.bind (ends_read (fun name hname => ?_) fun e he => by rw [ht] at he; cases he)
  obtain rfl : token = name := Except.ok.inj (ht.symm.trans hname)
  refine Ends.bind (ends_read (fun parameters _ => ?_) fun e he ⟨_, h⟩ => by rw [he] at h; cases h)
  refine Ends.bind (ends_lookUp (fun returns _ => ?_) fun e he _ ⟨_, h⟩ => by rw [he] at h; cases h)
  obtain ⟨ln, hline⟩ := Tree.line_of_nameToken ht
  refine Ends.bind (ends_lookUp (fun ln _ => ?_) fun e he => by rw [hline] at he; cases he)
  refine Ends.bind (ends_append ?_)
  cases returns with
  | none =>
    refine Ends.bind (ends_redeclareFunction ?_ (Ends.bind (ends_throw fun _ _ => rfl)))
    exact hu
  | some names =>
    refine Ends.bind (ends_modify (Ends.bind (ends_redeclareFunction ?_ (Ends.bind (ends_throw fun _ _ => rfl)))))
    exact hu

end LowerM

end Redeclared

/-! ### Compiled programs -/

theorem Store.Catalogued.declarations {s : Store} (hs : s.Catalogued) :
    (s.lines.filterMap Line.declaration?).map (fun f => (some f.1, f.2)) =
      (s.lines.filter (·.method = .function)).map fun l => (l.function, l.address) := by
  rw [List.map_filterMap, ← List.filterMap_eq_map, List.filterMap_filter]
  refine List.filterMap_congr fun l hl => ?_
  by_cases hm : l.method = .function
  · obtain ⟨name, hname⟩ := Option.isSome_iff_exists.mp (hs.named l hl hm)
    simp [Line.declaration?, hm, hname]
  · simp [Line.declaration?, hm]

theorem Tree.Begins.catalogued {t c : Tree} {q : Option Address} {u : Store} (hb : t.Begins c q u) : u.Catalogued :=
  hb.lowers.keeps Store.ready_empty Store.Catalogued.changes .empty

/-- The functions of a program are those that its lines declare, in order, each under a name of its own. A
    declaration of a function that a line before declares fails, and unless it cannot be read, it fails with
    the address of the first line that declares the function. -/
theorem functions_declared_once (t : Tree) :
    (∀ m, compile t = .ok m →
      m.functions.map (fun f => (some f.1, f.2)) =
          (m.lines.filter (·.method = .function)).map (fun l => (l.function, l.address)) ∧
        (m.functions.map (·.1)).Nodup) ∧
    ∀ c q u statement token first, t.Begins c q u → c.tag = "function_block" →
      c.child "function_statement" = .ok statement → statement.nameToken = .ok token →
      u.lines.find? (·.declares token.value) = some first →
      ∃ d, compile t = .error d ∧
        ((∃ ps, statement.readParameters = .ok ps) → (∃ rs, LowerM.readReturns statement = .ok rs) →
          d = { code := .functionAlreadyDeclared, position := statement.position?,
                context := [("function_name", token.value), ("line", first.address.text)] }) := by
  constructor
  · intro m hm
    obtain ⟨s, hs, rfl⟩ := compile_done hm
    have hcatalogued := hs.keeps Store.ready_empty Store.Catalogued.changes .empty
    have hregisters : s.Registers := hs.registers Store.ready_empty rfl
    refine ⟨?_, hcatalogued.distinct⟩
    show s.functions.map _ = (s.lines.filter _).map _
    rw [← hcatalogued.declarations, ← hregisters]
  · intro c q u statement token first hb htag hstatement htoken hfirst
    have hknown : u.function? token.value = some first.address := by
      rw [hb.catalogued.first, declaredAt?, hfirst, Option.map_some]
    have hends := LowerM.lowerFunction_redeclared (q := q) (c.subtrees.map fun x => ⟨x, x.lower⟩) hstatement htoken hknown
    obtain ⟨d, v, hrun, hd⟩ := hends.fails
    have hlower : c.lower q u = .error d v := by
      rw [Tree.lower_eq, LowerM.statement, htag]
      exact hrun
    exact ⟨d, hb.fails hlower, hd⟩

/-- A function in `try`, and one in the body of another function. -/
def Sample.scattered (inner : String) : Tree :=
  Shape.script [
    Shape.tryBlock [Shape.functionBlock "f" [] [] [] 2] 1 [],
    Shape.functionBlock "g" [("x", "int")] ["int"] [Shape.functionBlock inner [] [] [] 4] 3]

theorem functions_declared_once_scattered :
    (∃ m, compile (Sample.scattered "h") = .ok m ∧
      m.functions = [("f", ⟨"2"⟩), ("g", ⟨"3"⟩), ("h", ⟨"4"⟩)] ∧
      m.functions.map (fun f => (some f.1, f.2)) =
          (m.lines.filter (·.method = .function)).map (fun l => (l.function, l.address)) ∧
        (m.functions.map (·.1)).Nodup) ∧
    compile (Sample.scattered "f") =
      .error { code := .functionAlreadyDeclared, position := some { line := 4, column := 1 },
               context := [("function_name", "f"), ("line", "2")] } := by
  constructor
  · obtain ⟨m, hm⟩ := ok_of_isOk (x := compile (Sample.scattered "h")) (by decide +kernel)
    have hfunctions : (compile (Sample.scattered "h")).map (·.functions) =
        .ok [("f", ⟨"2"⟩), ("g", ⟨"3"⟩), ("h", ⟨"4"⟩)] := by decide +kernel
    rw [hm] at hfunctions
    exact ⟨m, hm, Except.ok.inj hfunctions, (functions_declared_once _).1 m hm⟩
  · obtain ⟨u, first, hb, hfirst, ha⟩ : ∃ u first,
        (Sample.scattered "f").Begins (Shape.functionBlock "f" [] [] [] 4) (some ⟨"3"⟩) u ∧
          u.lines.find? (·.declares "f") = some first ∧ first.address.text = "2" := by
      apply Exists.intro
      apply Exists.intro
      refine ⟨⟨fun c q _ => c.tag == "function_block" && q == some ⟨"3"⟩, fun report => ?_⟩, ?_, ?_⟩ <;> rfl
    obtain ⟨d, hd, hread⟩ := (functions_declared_once _).2 _ _ u _ (Shape.token "NAME" "f" 4) first hb rfl rfl rfl hfirst
    rw [hd, hread ⟨[], rfl⟩ ⟨none, rfl⟩, ha]
    rfl

end Flowline
