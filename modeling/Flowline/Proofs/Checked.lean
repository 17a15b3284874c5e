import Flowline.Manifest.Check
import Flowline.Proofs.Growth

/-! Every compiled manifest passes its check. `WellLinked` says what the check stands for: it accepts a
    manifest exactly when the links of the manifest are whole (`check_eq_ok_iff`), and the links of a
    lowered program are. -/

namespace Flowline

/-! ### What the check accepts -/

/-- The links of a manifest are whole. -/
structure Manifest.WellLinked (m : Manifest) : Prop where
  unique : (m.lines.map (·.address)).Nodup
  target : ∀ l ∈ m.lines, ∀ link a, l.link? link = some a → ∃ k ∈ m.lines, k.address = a
  body : ∀ l ∈ m.lines, ∀ k ∈ m.lines, l.enter = some k.address → k.parent = some l.address
  next : ∀ (i : Nat) (l : Line), m.lines[i]? = some l → l.next = m.lines[i + 1]?.map (·.address)
  entrypoint : m.entrypoint = m.lines.head?.map (·.address)
  functions : ∀ f ∈ m.functions, ∃ l ∈ m.lines, l.address = f.2 ∧ l.method = .function

theorem except_then_eq_ok {ε : Type} {x : Except ε Unit} {f : Unit → Except ε Unit} :
    (x >>= f) = .ok () ↔ x = .ok () ∧ f () = .ok () := by
  rw [except_bind_eq_ok]
  exact ⟨fun ⟨_, hx, hf⟩ => ⟨hx, hf⟩, fun ⟨hx, hf⟩ => ⟨(), hx, hf⟩⟩

theorem forM_eq_ok {ε α : Type} {f : α → Except ε Unit} {xs : List α} :
    xs.forM f = .ok () ↔ ∀ x ∈ xs, f x = .ok () := by
  induction xs with
  | nil => simp [pure, Except.pure]
  | cons x xs ih =>
    change (f x >>= fun _ => xs.forM f) = .ok () ↔ _
    rw [except_then_eq_ok, List.forall_mem_cons, ih]

namespace Manifest

variable {m : Manifest}

theorem demand_eq_ok {condition : Bool} {violation : Violation} :
    demand condition violation = .ok () ↔ condition = true := by
  unfold demand
  split <;> simp_all

theorem indexLines_cons_eq_ok {index indexed : LineIndex} {l : Line} {rest : List Line} :
    indexLines index (l :: rest) = .ok indexed ↔
      index.lookup l.address = none ∧ indexLines ((l.address, l) :: index) rest = .ok indexed := by
  rw [indexLines, except_bind_eq_ok, ← Option.isNone_iff_eq_none, ← demand_eq_ok]
  exact ⟨fun ⟨_, hl, hrest⟩ => ⟨hl, hrest⟩, fun ⟨hl, hrest⟩ => ⟨(), hl, hrest⟩⟩

/-- Lines are put into an index unless an address comes twice. -/
theorem indexLines_eq_ok {index : LineIndex} {ls : List Line} :
    (∃ indexed, indexLines index ls = .ok indexed) ↔
      (ls.map (·.address)).Nodup ∧ ∀ l ∈ ls, index.lookup l.address = none := by
  induction ls generalizing index with
  | nil => simp [indexLines]
  | cons l rest ih =>
    have hlookup : ∀ k : Line, List.lookup k.address ((l.address, l) :: index) = none ↔
        k.address ≠ l.address ∧ index.lookup k.address = none := by
      intro k
      rw [List.lookup_cons]
      by_cases hk : k.address = l.address
      · simp only [hk, beq_self_eq_true, reduceCtorEq, ne_eq, not_true_eq_false, false_and]
      · simp only [beq_eq_false_iff_ne.mpr hk, ne_eq, hk, not_false_eq_true, true_and]
    simp only [indexLines_cons_eq_ok, exists_and_left, ih, hlookup, List.map_cons, List.nodup_cons, List.forall_mem_cons,
      List.mem_map]
    constructor
    · rintro ⟨hl, hnodup, hne⟩
      exact ⟨⟨fun ⟨k, hk, hkl⟩ => (hne k hk).1 hkl, hnodup⟩, hl, fun k hk => (hne k hk).2⟩
    · rintro ⟨⟨hne, hnodup⟩, hl, hnone⟩
      exact ⟨hl, hnodup, fun k hk => ⟨fun hkl => hne ⟨k, hk, hkl⟩, hnone k hk⟩⟩

theorem lookup_indexLines {index indexed : LineIndex} {ls : List Line} (h : indexLines index ls = .ok indexed)
    (a : Address) : indexed.lookup a = (index.lookup a).or (ls.find? (·.address == a)) := by
  induction ls generalizing index with
  | nil =>
    cases h
    rw [List.find?_nil, Option.or_none]
  | cons l rest ih =>
    obtain ⟨hl, hrest⟩ := indexLines_cons_eq_ok.mp h
    rw [ih hrest, List.lookup_cons]
    by_cases ha : a = l.address
    · subst ha
      simp [hl]
    · simp [beq_eq_false_iff_ne.mpr ha, beq_eq_false_iff_ne.mpr (Ne.symm ha)]

/-- The index of a manifest has at each address the line that a search of the lines finds. -/
theorem lookup_eq_line? {index : LineIndex} (h : indexLines [] m.lines = .ok index) (a : Address) :
    index.lookup a = m.line? a := by
  rw [lookup_indexLines h]
  rfl

theorem line?_isSome {a : Address} : (m.line? a).isSome = true ↔ ∃ k ∈ m.lines, k.address = a := by
  simp [line?, List.find?_isSome]

theorem line?_iff (hu : (m.lines.map (·.address)).Nodup) {a : Address} {k : Line} :
    m.line? a = some k ↔ k ∈ m.lines ∧ k.address = a :=
  find?_address_iff hu

section Index

variable {index : LineIndex} (hi : ∀ a, index.lookup a = m.line? a)

include hi

theorem checkLink_eq_ok {l : Line} {link : Link} :
    checkLink index l link = .ok () ↔ ∀ a, l.link? link = some a → ∃ k ∈ m.lines, k.address = a := by
  unfold checkLink
  split
  · rename_i hn
    simp [hn]
  · rename_i target hs
    rw [demand_eq_ok, hi, line?_isSome]
    simp [hs]

variable (hu : (m.lines.map (·.address)).Nodup)

include hu

theorem checkBody_eq_ok {l : Line} :
    checkBody index l = .ok () ↔ ∀ k ∈ m.lines, l.enter = some k.address → k.parent = some l.address := by
  have hentered : ∀ k : Line,
      l.enter.bind (index.lookup ·) = some k ↔ k ∈ m.lines ∧ l.enter = some k.address := fun k => by
    simp only [Option.bind_eq_some_iff, hi, line?_iff hu]
    exact ⟨fun ⟨_, he, hk, ha⟩ => ⟨hk, ha ▸ he⟩, fun ⟨hk, he⟩ => ⟨_, he, hk, rfl⟩⟩
  unfold checkBody
  split
  · rename_i hn
    refine ⟨fun _ k hk he => ?_, fun _ => rfl⟩
    rw [(hentered k).mpr ⟨hk, he⟩] at hn
    cases hn
  · rename_i entered hs
    obtain ⟨hmem, he⟩ := (hentered entered).mp hs
    rw [demand_eq_ok, beq_iff_eq]
    refine ⟨fun hp k hk hek => ?_, fun h => h entered hmem he⟩
    rw [he, Option.some.injEq] at hek
    rw [← List.inj_on_of_nodup_map hu hmem hk hek, hp]

/-- The links of a line besides `next`, which is compared with the line that follows. -/
theorem checkLine_eq_ok {l : Line} {following : Option Address} :
    checkLine index l following = .ok () ↔
      (∀ link a, l.link? link = some a → ∃ k ∈ m.lines, k.address = a) ∧
        (∀ k ∈ m.lines, l.enter = some k.address → k.parent = some l.address) ∧ l.next = following := by
  simp only [checkLine, except_then_eq_ok, checkLink_eq_ok hi, checkBody_eq_ok hi hu, demand_eq_ok, beq_iff_eq]
  constructor
  · rintro ⟨hparent, henter, hexit, hnext, hbody, hfollow⟩
    refine ⟨fun link => ?_, hbody, hfollow⟩
    cases link <;> assumption
  · rintro ⟨hlink, hbody, hfollow⟩
    exact ⟨hlink .parent, hlink .enter, hlink .exit, hlink .next, hbody, hfollow⟩

theorem checkLines_eq_ok {ls : List Line} :
    checkLines index ls = .ok () ↔
      (∀ l ∈ ls, ∀ link a, l.link? link = some a → ∃ k ∈ m.lines, k.address = a) ∧
        (∀ l ∈ ls, ∀ k ∈ m.lines, l.enter = some k.address → k.parent = some l.address) ∧ Followed ls := by
  induction ls with
  | nil => simp [checkLines, Followed]
  | cons l rest ih =>
    rw [checkLines, except_then_eq_ok, checkLine_eq_ok hi hu, ih, List.forall_mem_cons, List.forall_mem_cons, Followed]
    constructor
    · rintro ⟨⟨hlink, hbody, hnext⟩, hlinks, hbodies, hfollowed⟩
      exact ⟨⟨hlink, hlinks⟩, ⟨hbody, hbodies⟩, hnext, hfollowed⟩
    · rintro ⟨⟨hlink, hlinks⟩, ⟨hbody, hbodies⟩, hnext, hfollowed⟩
      exact ⟨⟨hlink, hbody, hnext⟩, hlinks, hbodies, hfollowed⟩

theorem checkFunction_eq_ok {f : String × Address} :
    checkFunction index f = .ok () ↔ ∃ l ∈ m.lines, l.address = f.2 ∧ l.method = .function := by
  rw [checkFunction, demand_eq_ok, beq_iff_eq, Option.map_eq_some_iff]
  simp only [hi, line?_iff hu, and_assoc]

end Index

/-- The check accepts exactly the manifests whose links are whole. -/
theorem check_eq_ok_iff : m.check = .ok () ↔ m.WellLinked := by
  rw [check, except_bind_eq_ok]
  simp only [except_then_eq_ok, demand_eq_ok, beq_iff_eq, forM_eq_ok]
  constructor
  · rintro ⟨index, hindex, hlines, hentry, hfunctions⟩
    have hi := lookup_eq_line? hindex
    have hu := (indexLines_eq_ok.mp ⟨index, hindex⟩).1
    obtain ⟨htarget, hbody, hnext⟩ := (checkLines_eq_ok hi hu).mp hlines
    exact ⟨hu, htarget, hbody, followed_iff.mp hnext, hentry,
      fun f hf => (checkFunction_eq_ok hi hu).mp (hfunctions f hf)⟩
  · intro h
    obtain ⟨index, hindex⟩ : ∃ index, indexLines [] m.lines = .ok index :=
      indexLines_eq_ok.mpr ⟨h.unique, fun _ _ => rfl⟩
    have hi := lookup_eq_line? hindex
    refine ⟨index, hindex, ?_, h.entrypoint, fun f hf => ?_⟩
    · exact (checkLines_eq_ok hi h.unique).mpr ⟨h.target, h.body, followed_iff.mpr h.next⟩
    · exact (checkFunction_eq_ok hi h.unique).mpr (h.functions f hf)

end Manifest

/-! ### Declared functions -/

/-- Every declared function has a `function` line. -/
def Store.Declares (s : Store) : Prop :=
  ∀ f ∈ s.functions, ∃ l ∈ s.lines, l.address = f.2 ∧ l.method = .function

section Declared

variable {p : Option Address} {s t : Store} {o : Outcome} {h : Address} {names : List String}

theorem Store.Declares.grows (hd : s.Declares) (hg : Store.Grows p s t) (hf : t.functions = s.functions) :
    t.Declares := by
  obtain ⟨old, new, ht, hold, -⟩ := hg
  intro f hmem
  obtain ⟨l, hl, ha, hm⟩ := hd f (hf ▸ hmem)
  obtain ⟨l', hl', hr⟩ := forall₂_mem_left hold l hl
  exact ⟨l', by rw [ht]; exact List.mem_append_left _ hl', hr.address.trans ha, hr.method.trans hm⟩

theorem Opens.keeps_declares (ho : Opens p s h names t) (hs : s.Linked) (hd : s.Declares) : t.Declares := by
  have hgrows := ho.grows hs
  cases ho with
  | plain => exact hd.grows hgrows (s.emit_functions _ _ _)
  | @linked m ln d a =>
    refine hd.grows hgrows ?_
    rcases (s.emit m ln d).linkExit_cases a with heq | ⟨_, _, _, _, _, -, -, -, -, -, heq⟩ <;> rw [heq]
    · exact s.emit_functions m ln d
    · exact s.emit_functions m ln d
  | @declared ln name parameters returns hn =>
    have hkept : (s.emit .function ln (.declaration name parameters returns p)).Declares :=
      hd.grows (Store.Grows.emit rfl) (s.emit_functions _ _ _)
    have hnone : (s.emit .function ln (.declaration name parameters returns p)).function? name = none := by
      rw [Store.function?, s.emit_functions]
      exact hn
    simp only [Store.declareFunction, hnone]
    intro f hf
    rcases List.mem_append.mp hf with hf | hf
    · exact hkept f hf
    · rw [List.mem_singleton.mp hf]
      refine ⟨s.newLine .function ln (.declaration name parameters returns p), ?_, rfl, rfl⟩
      rw [s.emit_lines]
      exact List.mem_append_right _ List.mem_cons_self

theorem Lowers.declares (h : Lowers p s o t) (hs : s.Linked) (hg : s.Grounded) (hp : s.Has p) (hd : s.Declares) :
    t.Declares := by
  induction h with
  | skip | stop | imports => exact hd
  | andThen h _ ih ih' =>
    have hst := h.grows hs hg hp
    exact ih' (h.linked hs) (hst.grounded hg hp) (hst.has hp) (ih hs hg hp hd)
  | @continues p s m more hm =>
    refine hd.grows (p := p) (.of_kept (Store.kept_addArgsToLast hs.keyed hm)) ?_
    rcases s.addArgsToLast_cases m more with heq | ⟨a, -, heq⟩ <;> rw [heq]
    rcases s.addArgs_cases a m more with heq | ⟨_, -, -, heq⟩ <;> rw [heq]
  | line he => exact hd.grows (.emit he.parent) (Store.emit_functions _ _ _ _)
  | @named p s m ln d path he hm => exact hd.grows ((Lowers.named he hm).grows hs hg hp) (s.emit_functions m ln d)
  | redeclared => exact hd.grows (.emit rfl) (Store.emit_functions _ _ _ _)
  | header ho => exact ho.keeps_declares hs hd
  | block ho _ _ ih | inside ho _ _ ih =>
    exact ih ((ho.keeps_linked hs).of_lines rfl) ((ho.grows hs).grounded hg hp) (ho.has hs) (ho.keeps_declares hs hd)
  | @loop p s t u h c l ln _ _ _ _ _ ho _ ih =>
    have hu : u.Declares :=
      ih ((ho.keeps_linked hs).of_lines rfl) ((ho.grows hs).grounded hg hp) (ho.has hs) (ho.keeps_declares hs hd)
    refine hu.grows (p := some h) (.trans .copyLine (.of_lines rfl)) ?_
    rcases u.copyLine_cases c ln (some h) with ⟨-, heq⟩ | ⟨_, -, heq⟩ <;> rw [heq] <;> rfl

end Declared

/-! ### Compiled programs -/

theorem Store.manifest_wellLinked {s : Store} (hs : s.Linked) (hg : s.Grounded) (hd : s.Declares) (version : String) :
    (s.manifest version).WellLinked where
  unique := hs.keyed.nodup
  target l hl link a ha := by
    cases link with
    | parent => exact hg l hl a ha
    | enter =>
      obtain ⟨k, hk, hka, -⟩ := hs.entered l hl a ha
      exact ⟨k, hk, hka⟩
    | exit =>
      obtain ⟨i, hi⟩ := List.mem_iff_getElem?.mp hl
      obtain ⟨-, j, k, -, hk, hka, -⟩ := exited_iff.mp hs.exited i l a hi ha
      exact ⟨k, List.mem_of_getElem? hk, hka⟩
    | next =>
      obtain ⟨i, hi⟩ := List.mem_iff_getElem?.mp hl
      have hnext : l.next = s.lines[i + 1]?.map (·.address) := followed_iff.mp hs.followed i l hi
      rw [show l.next = some a from ha] at hnext
      obtain ⟨k, hk, hka⟩ := Option.map_eq_some_iff.mp hnext.symm
      exact ⟨k, List.mem_of_getElem? hk, hka⟩
  body l hl k hk he := by
    obtain ⟨k', hk', ha, hp⟩ := hs.entered l hl _ he
    rw [← eq_of_address hs.keyed hk' hk ha, hp]
  next := followed_iff.mp hs.followed
  entrypoint := rfl
  functions := hd

/-- Whatever the tree is, if it compiles, the check accepts the manifest: its links are whole. -/
theorem compile_check {t : Tree} {m : Manifest} (h : compile t = .ok m) : m.check = .ok () ∧ m.WellLinked := by
  obtain ⟨s, hs, rfl⟩ := compile_done h
  have hlinked := hs.linked Store.linked_empty
  have hgrows := hs.grows Store.linked_empty Store.grounded_empty (Store.has_none _)
  have hdeclares := hs.declares Store.linked_empty Store.grounded_empty (Store.has_none _) fun f hf => by cases hf
  have hm := Store.manifest_wellLinked hlinked (hgrows.grounded Store.grounded_empty (Store.has_none _)) hdeclares
    Manifest.formatVersion
  exact ⟨Manifest.check_eq_ok_iff.mpr hm, hm⟩

theorem ok_of_isOk {ε α : Type} {x : Except ε α} (h : x.isOk = true) : ∃ a, x = .ok a := by
  cases x with
  | ok a => exact ⟨a, rfl⟩
  | error e => cases h

namespace Sample

def word (kind value : String) (line : UInt32) : Child :=
  .token { kind, value, position := { line, column := 1 } }

def node (tag : String) (children : List Child) : Child :=
  .tree ⟨tag, children⟩

def name (value : String) (line : UInt32) : Child :=
  node "path" [word "NAME" value line]

def body (statements : List Child) : Child :=
  node "nested_block" statements

/-- `target = source`. -/
def assignment (target source : String) (line : UInt32) : Child :=
  node "assignment" [name target line, node "assignment_fragment" [node "base_expression" [name source line]]]

/-- A function of no parameters that returns nothing. -/
def declaration : Child :=
  node "function_block" [
    node "function_statement" [word "NAME" "f" 1],
    body [node "return_statement" [word "RETURN" "return" 2]]]

/-- `if f()`, `else if db` and `else`: the first two conditions are computed by a line of their own. -/
def branches : Tree :=
  ⟨"if_block", [
    node "if_statement" [word "IF" "if" 3, node "base_expression" [node "call_expression" [name "f" 3]]],
    body [assignment "a" "b" 4],
    node "elseif_block" [
      node "elseif_statement" [node "base_expression" [node "service" [name "db" 5, node "service_fragment" []]]],
      body [node "throw_statement" [word "THROW" "throw" 6]]],
    node "else_block" [word "ELSE" "else" 7, body [node "throw_statement" [word "NAME" "a" 8]]]]⟩

/-- `try`, `catch as e` and `finally`. -/
def rescue : Tree :=
  ⟨"try_block", [
    node "try_statement" [word "TRY" "try" 9],
    body [assignment "a" "b" 10],
    node "catch_block" [
      node "catch_statement" [word "CATCH" "catch" 11, word "NAME" "e" 11],
      body [assignment "c" "e" 12]],
    node "finally_block" [word "FINALLY" "finally" 13, body [assignment "d" "a" 14]]]⟩

def program : Tree :=
  ⟨"start", [declaration, .tree branches, .tree rescue]⟩

end Sample

theorem compile_program : ∃ m, compile Sample.program = .ok m ∧ m.lines.length = 16 := by
  obtain ⟨m, hm⟩ := ok_of_isOk (x := compile Sample.program) (by decide +kernel)
  have hlength : (compile Sample.program).map (·.lines.length) = .ok 16 := by decide +kernel
  rw [hm] at hlength
  exact ⟨m, hm, Except.ok.inj hlength⟩

theorem compile_check_program :
    ∃ m, compile Sample.program = .ok m ∧ m.lines.length = 16 ∧ m.check = .ok () ∧ m.WellLinked := by
  obtain ⟨m, hm, hlength⟩ := compile_program
  exact ⟨m, hm, hlength, compile_check hm⟩

end Flowline
