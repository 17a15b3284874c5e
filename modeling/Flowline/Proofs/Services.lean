import Flowline.Proofs.Changes
import Flowline.Proofs.Failing

/-! The registry of services. It lists the services that lines execute or listen to, each once, in the order of
    their first lines. A name that stands for a handle where a line uses it is not listed for that line, and a
    service that is called inside an operand is not listed for that call. -/

namespace Flowline

/-! ### What a name stands for, computed -/

/-- What a name stands for under a parent, looking for the parent among earlier lines, the latest first. -/
def boundIn (ls : List Line) (n : String) : List Line → Option Address → Option Binding
  | _, none => level? ls none n
  | [], some _ => none
  | h :: earlier, some a =>
    if h.address = a then (level? ls (some h) n).or (boundIn ls n earlier h.parent) else boundIn ls n earlier (some a)

/-- What a name stands for where a line is added to these lines under a parent. -/
def bound? (ls : List Line) (p : Option Address) (n : String) : Option Binding :=
  boundIn ls n ls.reverse p

section Bound

variable {p q : Option Address} {ls ls' back back' : List Line} {n : String}

theorem boundIn_none (ls back : List Line) (n : String) : boundIn ls n back none = level? ls none n := by
  cases back <;> rfl

theorem boundIn_skip {a : Address} (back back' : List Line) (h : ∀ l ∈ back, l.address ≠ a) :
    boundIn ls n (back ++ back') (some a) = boundIn ls n back' (some a) := by
  induction back with
  | nil => rfl
  | cons l back ih =>
    rw [List.cons_append, boundIn, if_neg (h l (by simp))]
    exact ih fun l' hl' => h l' (List.mem_cons_of_mem _ hl')

/-- From a header the walk goes on among the lines before it. -/
theorem boundIn_header {h : Line} {pre post : List Line} (hk : ((pre ++ h :: post).map (·.address)).Nodup) :
    boundIn ls n (pre ++ h :: post).reverse (some h.address) =
      (level? ls (some h) n).or (boundIn ls n pre.reverse h.parent) := by
  have hne : ∀ l ∈ post.reverse, l.address ≠ h.address := by
    rw [List.map_append, List.map_cons, List.nodup_append, List.nodup_cons] at hk
    intro l hl heq
    exact hk.2.1.1 (heq ▸ List.mem_map_of_mem (List.mem_reverse.mp hl))
  rw [List.reverse_append, List.reverse_cons, List.append_assoc, boundIn_skip _ _ hne, List.singleton_append, boundIn,
    if_pos rfl]

/-- The walk back through the lines answers what the walk outward along parents does. -/
theorem boundIn_eq {r : Option Binding} (h : Resolves ls n q r) (hk : Keyed ls) (hr : Rooted ls) {front : List Line}
    (hfront : front <+: ls) (hq : ∀ a, q = some a → ∃ k ∈ front, k.address = a) :
    boundIn ls n front.reverse q = r := by
  -- The header that stands for the parent splits the lines in front.
  have hsplit : ∀ {front : List Line} {h : Line}, front <+: ls → h ∈ ls → (∃ k ∈ front, k.address = h.address) →
      ∃ pre post, front = pre ++ h :: post ∧ boundIn ls n front.reverse (some h.address) =
        (level? ls (some h) n).or (boundIn ls n pre.reverse h.parent) := by
    rintro front h hfront hh ⟨k, hmem, ha⟩
    obtain rfl := eq_of_address hk (hfront.subset hmem) hh ha
    obtain ⟨pre, post, rfl⟩ := List.append_of_mem hmem
    exact ⟨pre, post, rfl, boundIn_header (hk.nodup.sublist (hfront.sublist.map _))⟩
  induction h generalizing front with
  | top => exact boundIn_none _ _ _
  | @here h b hh hb =>
    obtain ⟨pre, post, -, hwalk⟩ := hsplit hfront hh (hq _ rfl)
    rw [hwalk, hb, Option.some_or]
  | @outward h r hh hb _ ih =>
    obtain ⟨pre, post, rfl, hwalk⟩ := hsplit hfront hh (hq _ rfl)
    obtain ⟨rest, rfl⟩ := hfront
    rw [hwalk, hb, Option.none_or]
    refine ih ⟨h :: post ++ rest, by simp⟩ fun a ha => ?_
    obtain ⟨j, k, hj, hkj, hka⟩ := hr pre.length h a (by simp) ha
    rw [List.append_assoc, List.getElem?_append_left hj] at hkj
    exact ⟨k, List.mem_of_getElem? hkj, hka⟩

theorem Store.Ready.bound?_eq {s : Store} (hs : s.Ready p) (hr : Rooted s.lines) (n : String) :
    bound? s.lines p n = s.scopes.lookup? n := by
  have hresolves := (hs.frames.resolves_iff (n := n) hs.linked.keyed).mp rfl
  exact boundIn_eq hresolves hs.linked.keyed hr List.prefix_rfl hs.has

theorem level?_kept (h : List.Forall₂ (Line.Kept p) ls ls') {header header' : Option Line}
    (hh : Option.Rel (Line.Kept p) header header') (n : String) : level? ls' header' n = level? ls header n := by
  cases hh with
  | none => rw [level?, level?, assignedUnder_kept h, Option.map_none]
  | some hr => simp only [level?, assignedUnder_kept h, Option.map_some, Option.bind_some, hr.address, hr.binding?]

theorem boundIn_kept (h : List.Forall₂ (Line.Kept p) ls ls') (hback : List.Forall₂ (Line.Kept p) back back')
    (q : Option Address) (n : String) : boundIn ls' n back' q = boundIn ls n back q := by
  induction hback generalizing q with
  | nil =>
    cases q with
    | none => exact level?_kept h .none n
    | some a => rfl
  | cons hr _ ih =>
    cases q with
    | none => exact level?_kept h .none n
    | some a => rw [boundIn, boundIn, level?_kept h (.some hr), ih, ih, hr.address, hr.parent]

theorem bound?_kept (h : List.Forall₂ (Line.Kept p) ls ls') (q : Option Address) (n : String) :
    bound? ls' q n = bound? ls q n :=
  boundIn_kept h (List.forall₂_reverse_iff.mpr h) q n

end Bound

/-! ### Lines that invoke a service -/

/-- The service that a line after these lines executes or listens to, unless its name stands for a handle there. -/
def Line.invoked? (before : List Line) (l : Line) : Option String :=
  if l.method = .execute ∨ l.method = .when then l.service.filter (bound? before l.parent · ≠ some .handle) else none

/-- The services that lines invoke, in order, where other lines stand before them. -/
def invokedAfter : List Line → List Line → List String
  | _, [] => []
  | before, l :: rest => (l.invoked? before).toList ++ invokedAfter (before ++ [l]) rest

/-- The services that lines invoke, in order. -/
def invokedServices (ls : List Line) : List String :=
  invokedAfter [] ls

section Invoked

variable {p : Option Address} {before before' ls ls' : List Line} {l l' : Line} {n : String}

theorem Line.invoked?_eq_some :
    l.invoked? before = some n ↔ (l.method = .execute ∨ l.method = .when) ∧ l.service = some n ∧
      bound? before l.parent n ≠ some .handle := by
  rw [Line.invoked?]
  split <;> simp [*]

theorem Line.Kept.invoked? (hl : l.Kept p l') (hb : List.Forall₂ (Line.Kept p) before before') :
    l'.invoked? before' = l.invoked? before := by
  have hservice : l'.service = l.service := by rw [hl.rest]
  simp only [Line.invoked?, hl.method, hl.parent, hservice, bound?_kept hb]

theorem invokedAfter_append (before ls ls' : List Line) :
    invokedAfter before (ls ++ ls') = invokedAfter before ls ++ invokedAfter (before ++ ls) ls' := by
  induction ls generalizing before with
  | nil => simp [invokedAfter]
  | cons l ls ih => simp [invokedAfter, ih]

theorem invokedAfter_kept (hb : List.Forall₂ (Line.Kept p) before before') (hl : List.Forall₂ (Line.Kept p) ls ls') :
    invokedAfter before' ls' = invokedAfter before ls := by
  induction hl generalizing before before' with
  | nil => rfl
  | cons hr _ ih => rw [invokedAfter, invokedAfter, hr.invoked? hb, ih (List.rel_append hb (.cons hr .nil))]

theorem invokedServices_concat {old : List Line} (hold : List.Forall₂ (Line.Kept p) ls old) (k : Line) :
    invokedServices (old ++ [k]) = invokedServices ls ++ (k.invoked? old).toList := by
  rw [invokedServices, invokedAfter_append, invokedAfter_kept .nil hold]
  simp [invokedAfter, invokedServices]

theorem mem_invokedAfter :
    n ∈ invokedAfter before ls ↔ ∃ (i : Nat) (l : Line), ls[i]? = some l ∧ l.invoked? (before ++ ls.take i) = some n := by
  induction ls generalizing before with
  | nil => simp [invokedAfter]
  | cons k ls ih =>
    rw [invokedAfter, List.mem_append, ih, Option.mem_toList]
    constructor
    · rintro (hk | ⟨i, l, hl, hn⟩)
      · exact ⟨0, k, rfl, by simpa using hk⟩
      · exact ⟨i + 1, l, hl, by simpa using hn⟩
    · rintro ⟨i, l, hl, hn⟩
      cases i with
      | zero =>
        obtain rfl : k = l := by simpa using hl
        exact Or.inl (by simpa using hn)
      | succ i => exact Or.inr ⟨i, l, hl, by simpa using hn⟩

theorem mem_invokedServices :
    n ∈ invokedServices ls ↔ ∃ (i : Nat) (l : Line), ls[i]? = some l ∧ l.invoked? (ls.take i) = some n := by
  simp [invokedServices, mem_invokedAfter]

end Invoked

theorem eraseDups_concat (names : List String) (n : String) :
    (names ++ [n]).eraseDups = if n ∈ names then names.eraseDups else names.eraseDups ++ [n] := by
  rw [List.eraseDups_append]
  split <;> simp [List.removeAll, List.eraseDups_cons, *]

theorem nodup_eraseDups (names : List String) : names.eraseDups.Nodup := by
  induction names using List.reverseRecOn with
  | nil => simp
  | append_singleton names n ih =>
    rw [eraseDups_concat]
    split
    · exact ih
    · rename_i hn
      refine List.nodup_append.mpr ⟨ih, List.nodup_singleton n, fun a ha b hb hab => ?_⟩
      rw [hab, List.mem_singleton.mp hb, List.mem_eraseDups] at ha
      exact hn ha

/-! ### The registry -/

/-- The services of a store are those that its lines invoke, each once, in the order of their first lines. All that
    lines execute are among them, and none has a dot. -/
structure Store.Serves (s : Store) : Prop where
  rooted : Rooted s.lines
  listed : s.services = (invokedServices s.lines).eraseDups
  executed : ∀ l ∈ s.lines, l.method = .execute → ∃ n ∈ s.services, l.service = some n
  dotless : ∀ n ∈ s.services, '.' ∉ n.toList

/-- A line that is emitted either invokes no service, or invokes one whose name has no dot. -/
theorem Emits.service_cases {s : Store} {p : Option Address} {m : Method} {d : Draft} (he : Emits s p m d) :
    (m ≠ .execute ∧ (d.service = none ∨ m = .call)) ∨
      ∃ n, d.service = some n ∧ (m = .execute ∧ s.isHandle n = false ∨ m = .when) ∧ '.' ∉ n.toList := by
  cases he with
  | value hm | test hm | bare hm => rcases hm with rfl | rfl | rfl <;> exact Or.inl ⟨by simp, Or.inl rfl⟩
  | leave hm => rcases hm with rfl | rfl <;> exact Or.inl ⟨by simp, Or.inl rfl⟩
  | call => exact Or.inl ⟨by simp, Or.inr rfl⟩
  | listen | raise | iterate | rescue => exact Or.inl ⟨by simp, Or.inl rfl⟩
  | @invoke m r hdot hm =>
    have hdot : '.' ∉ r.name.toList := by simpa [Text.has] using hdot
    rcases hm with rfl | rfl
    · exact Or.inr ⟨r.name, rfl, Or.inr rfl, hdot⟩
    · cases hh : s.isHandle r.name with
      | true => exact Or.inl ⟨by simp, Or.inr rfl⟩
      | false => exact Or.inr ⟨r.name, rfl, Or.inl ⟨rfl, hh⟩, hdot⟩

theorem Store.registerFor_services (s : Store) (m : Method) (n : String) :
    (s.registerFor m (some n)).services =
      if m = .call ∨ s.isHandle n = true ∨ n ∈ s.services then s.services else s.services ++ [n] := by
  by_cases hh : m = .call ∨ s.isHandle n = true
  · rw [registerFor, if_pos hh, if_pos (hh.imp_right Or.inl)]
  · by_cases hn : n ∈ s.services
    · simp [registerFor, hh, registerService, hn]
    · simp only [not_or] at hh
      simp [registerFor, hh, registerService, hn]

namespace Store.Serves

variable {p : Option Address} {s t : Store} {old : List Line} {k : Line}

theorem empty : ({} : Store).Serves where
  rooted _ _ _ h := by simp at h
  listed := rfl
  executed l hl := by cases hl
  dotless n hn := by cases hn

theorem executed_concat (hs : s.Serves) (hl : t.lines = old ++ [k]) (hold : List.Forall₂ (Line.Kept p) s.lines old)
    (hv : s.services ⊆ t.services) (hk : k.method = .execute → ∃ n ∈ t.services, k.service = some n) :
    ∀ l ∈ t.lines, l.method = .execute → ∃ n ∈ t.services, l.service = some n := by
  intro l hmem hm
  rw [hl] at hmem
  rcases List.mem_append.mp hmem with hmem | hmem
  · obtain ⟨l', hl', hr⟩ := forall₂_mem_right hold l hmem
    obtain ⟨n, hn, hservice⟩ := hs.executed l' hl' (hr.method ▸ hm)
    exact ⟨n, hv hn, by rw [hr.rest]; exact hservice⟩
  · rw [List.mem_singleton.mp hmem] at hm ⊢
    exact hk hm

/-- A line that invokes nothing, or what is listed already, leaves the list as it is. -/
theorem concat_same (hs : s.Serves) (hr : Rooted t.lines) (hl : t.lines = old ++ [k])
    (hold : List.Forall₂ (Line.Kept p) s.lines old) (hv : t.services = s.services)
    (hk : ∀ n, k.invoked? old = some n → n ∈ s.services)
    (he : k.method = .execute → ∃ n ∈ s.services, k.service = some n) : t.Serves where
  rooted := hr
  listed := by
    rw [hv, hl, invokedServices_concat hold, hs.listed]
    cases hn : k.invoked? old with
    | none => simp
    | some n =>
      have hmem : n ∈ invokedServices s.lines := List.mem_eraseDups.mp (hs.listed ▸ hk n hn)
      rw [Option.toList_some, eraseDups_concat, if_pos hmem]
  executed := hs.executed_concat hl hold (hv ▸ List.Subset.refl _) (hv ▸ he)
  dotless := hv ▸ hs.dotless

/-- A line that invokes a new service adds it at the end. -/
theorem concat_new {n : String} (hs : s.Serves) (hr : Rooted t.lines) (hl : t.lines = old ++ [k])
    (hold : List.Forall₂ (Line.Kept p) s.lines old) (hn : k.invoked? old = some n) (hnew : n ∉ s.services)
    (hv : t.services = s.services ++ [n]) (hdot : '.' ∉ n.toList) : t.Serves where
  rooted := hr
  listed := by
    have hmem : n ∉ invokedServices s.lines := fun h => hnew (hs.listed ▸ List.mem_eraseDups.mpr h)
    rw [hv, hl, invokedServices_concat hold, hn, Option.toList_some, eraseDups_concat, if_neg hmem, hs.listed]
  executed := hs.executed_concat hl hold (hv ▸ List.subset_append_left _ _) fun _ =>
    ⟨n, by simp [hv], (Line.invoked?_eq_some.mp hn).2.1⟩
  dotless x hx := by
    rw [hv] at hx
    rcases List.mem_append.mp hx with hx | hx
    · exact hs.dotless x hx
    · rwa [List.mem_singleton.mp hx]

theorem emit {m : Method} {ln : UInt32} {d : Draft} {name : Option (List Segment)} (hs : s.Serves) (hr : Rooted t.lines)
    (hready : s.Ready p) (he : Emits s p m d)
    (hl : t.lines = s.linkedTo p (s.fresh ln) ++ [{ s.newLine m ln d with name }])
    (hv : t.services = (s.registerFor m d.service).services) : t.Serves := by
  have hold := s.kept_linkedTo p (s.fresh ln)
  have hbound : ∀ n, bound? (s.linkedTo p (s.fresh ln)) d.parent n = s.scopes.lookup? n := fun n => by
    rw [bound?_kept hold, he.parent, hready.bound?_eq hs.rooted]
  rcases he.service_cases with ⟨hm, hnone⟩ | ⟨n, hn, hm, hdot⟩
  · refine hs.concat_same hr hl hold ?_ (fun n hinvoked => ?_) fun h => absurd h hm
    · cases hd : d.service with
      | none => rw [hv, hd, Store.registerFor]
      | some n =>
        obtain rfl : m = .call := hnone.resolve_left (by simp [hd])
        rw [hv, hd, Store.registerFor_services, if_pos (Or.inl rfl)]
    · obtain ⟨hmethod, hservice, -⟩ := Line.invoked?_eq_some.mp hinvoked
      rcases hnone with hnone | rfl
      · exact absurd (hnone.symm.trans hservice) (by simp)
      · simp [Store.newLine, Draft.line] at hmethod
  · have hmethod : m = .execute ∨ m = .when := hm.imp_left And.left
    have hcall : m ≠ .call := by rcases hmethod with rfl | rfl <;> simp
    cases hhandle : s.isHandle n with
    | true =>
      have hwhen : m = .when := hm.resolve_left fun h => by simp [hhandle] at h
      refine hs.concat_same hr hl hold ?_ (fun n' hinvoked => ?_) fun h => ?_
      · rw [hv, hn, Store.registerFor_services, if_pos (Or.inr (Or.inl hhandle))]
      · obtain ⟨-, hservice, hunbound⟩ := Line.invoked?_eq_some.mp hinvoked
        obtain rfl : n = n' := Option.some.inj (hn.symm.trans hservice)
        exact absurd ((hbound n).trans (beq_iff_eq.mp hhandle)) hunbound
      · exact absurd (hwhen.symm.trans h) (by simp)
    | false =>
      have hinvoked : Line.invoked? (s.linkedTo p (s.fresh ln)) { s.newLine m ln d with name } = some n := by
        refine Line.invoked?_eq_some.mpr ⟨hmethod, hn, fun hb => ?_⟩
        have hlookup : s.scopes.lookup? n = some .handle := (hbound n).symm.trans hb
        simp [Store.isHandle, hlookup] at hhandle
      rw [hn, Store.registerFor_services] at hv
      by_cases hmem : n ∈ s.services
      · refine hs.concat_same hr hl hold (by simpa [hmem] using hv) (fun n' hinvoked' => ?_) fun _ => ⟨n, hmem, hn⟩
        rwa [Option.some.inj (hinvoked'.symm.trans hinvoked)]
      · exact hs.concat_new hr hl hold hinvoked hmem (by simpa [hmem, hcall, hhandle] using hv) hdot

theorem changes (h : s.Changes t) (hs : s.Serves) : t.Serves := by
  have hr := h.rooted hs.rooted
  cases h with
  | amend hl _ hv =>
    refine ⟨hr, ?_, fun l hmem hm => ?_, hv ▸ hs.dotless⟩
    · rw [hv, hs.listed, invokedServices, invokedServices, invokedAfter_kept .nil hl]
    · obtain ⟨l', hl', hk⟩ := forall₂_mem_right hl l hmem
      rw [hk.rest, hv]
      exact hs.executed l' hl' (hk.method ▸ hm)
  | emit hready he hl _ hv => exact hs.emit hr hready he hl hv
  | declare _ _ hl _ hv | redeclare _ _ hl _ hv =>
    refine hs.concat_same hr hl (s.kept_linkedTo _ _) hv (fun n hn => ?_) nofun
    simp [Line.invoked?, Store.newLine, Draft.line] at hn
  | @copy _ _ _ line _ hline hm hl _ hv =>
    have hexecuted := hs.executed line hline
    refine hs.concat_same hr hl (s.kept_linkedTo _ _) hv (fun n hn => ?_) hexecuted
    -- What is copied computes a value, so it does not listen, and what it executes is listed.
    obtain ⟨hmethod, hservice, -⟩ := Line.invoked?_eq_some.mp hn
    rcases hmethod with hmethod | hmethod
    · obtain ⟨n', hn', hservice'⟩ := hexecuted hmethod
      rwa [Option.some.inj (hservice.symm.trans hservice')]
    · rw [show line.method = .when from hmethod] at hm
      cases hm

end Store.Serves

/-- The services of a program are those that its lines execute or listen to, each once, in the order of their
    first lines, where names of handles do not count. All that lines execute are among them, and none has a
    dot. -/
theorem services_invoked {t : Tree} {m : Manifest} (h : compile t = .ok m) :
    m.services = (invokedServices m.lines).eraseDups ∧ m.services.Nodup ∧
      (∀ l ∈ m.lines, l.method = .execute → ∃ n ∈ m.services, l.service = some n) ∧
      ∀ n ∈ m.services, (∃ l ∈ m.lines, (l.method = .execute ∨ l.method = .when) ∧ l.service = some n) ∧
        '.' ∉ n.toList := by
  obtain ⟨s, hs, rfl⟩ := compile_done h
  have hserves : s.Serves := hs.keeps Store.ready_empty Store.Serves.changes .empty
  have hlisted : (s.manifest Manifest.formatVersion).services = (invokedServices s.lines).eraseDups := hserves.listed
  refine ⟨hlisted, hlisted ▸ nodup_eraseDups _, hserves.executed, fun n hn => ⟨?_, hserves.dotless n hn⟩⟩
  rw [hlisted, List.mem_eraseDups] at hn
  obtain ⟨i, l, hl, hinvoked⟩ := mem_invokedServices.mp hn
  obtain ⟨hmethod, hservice, -⟩ := Line.invoked?_eq_some.mp hinvoked
  exact ⟨l, List.mem_of_getElem? hl, hmethod, hservice⟩

/-- A service whose handle is called and listened to, a service that is listened to, and one that is executed as
    the condition of a loop. -/
def Sample.usage : Tree :=
  Shape.script [
    Shape.serviceBlock (Shape.service "db" none [] ["client"] 1) (some (Shape.body [
      Shape.whenBlock (Shape.service "client" none [] [] 2) [] [] 2,
      Shape.whenBlock (Shape.service "web" none [] [] 3) [] [] 3])),
    Shape.whileBlock (Shape.service "mail" none [] [] 4) [] 4,
    Shape.service "db" none [] [] 5]

theorem services_invoked_usage :
    ∃ m, compile Sample.usage = .ok m ∧
      m.lines.map (fun l => (l.method, l.service)) =
        [(.execute, some "db"), (.when, some "client"), (.when, some "web"), (.execute, some "mail"), (.while_, none),
          (.execute, some "mail"), (.execute, some "db")] ∧
      m.services = ["db", "web", "mail"] ∧
      m.services = (invokedServices m.lines).eraseDups ∧ m.services.Nodup ∧
      (∀ l ∈ m.lines, l.method = .execute → ∃ n ∈ m.services, l.service = some n) ∧
      ∀ n ∈ m.services, (∃ l ∈ m.lines, (l.method = .execute ∨ l.method = .when) ∧ l.service = some n) ∧
        '.' ∉ n.toList := by
  obtain ⟨m, hm⟩ := ok_of_isOk (x := compile Sample.usage) (by decide +kernel)
  have hlines : (compile Sample.usage).map (fun m => (m.lines.map (fun l => (l.method, l.service)), m.services)) =
      .ok ([(.execute, some "db"), (.when, some "client"), (.when, some "web"), (.execute, some "mail"), (.while_, none),
        (.execute, some "mail"), (.execute, some "db")], ["db", "web", "mail"]) := by decide +kernel
  rw [hm] at hlines
  obtain ⟨hlines, hservices⟩ := Prod.mk.inj (Except.ok.inj hlines)
  exact ⟨m, hm, hlines, hservices, services_invoked hm⟩

/-! ### Calls inside operands -/

mutual

/-- The services that are called inside a value, at any depth. -/
def Value.calls : Value → List String
  | .string _ none | .number _ | .boolean _ | .file _ | .type _ => []
  | .string _ (some values) | .list values | .expression _ values => Value.callsOfList values
  | .dict items => Value.callsOfPairs items
  | .path segments => Segment.callsOfList segments
  | .call service _ _ arguments => service :: Argument.callsOfList arguments
  | .argument argument => argument.calls
  | .mutation _ arguments => Argument.callsOfList arguments

def Value.callsOfList : List Value → List String
  | [] => []
  | value :: rest => value.calls ++ Value.callsOfList rest

def Value.callsOfPairs : List (Value × Value) → List String
  | [] => []
  | (key, value) :: rest => key.calls ++ value.calls ++ Value.callsOfPairs rest

def Segment.calls : Segment → List String
  | .name _ => []
  | .computed value => value.calls

def Segment.callsOfList : List Segment → List String
  | [] => []
  | segment :: rest => segment.calls ++ Segment.callsOfList rest

def Argument.calls : Argument → List String
  | ⟨_, value⟩ => value.calls

def Argument.callsOfList : List Argument → List String
  | [] => []
  | argument :: rest => argument.calls ++ Argument.callsOfList rest

end

/-- The services that are called inside the operands and the name of a line. -/
def Line.inlineCalls (l : Line) : List String :=
  Value.callsOfList (l.args.getD []) ++ Segment.callsOfList (l.name.getD [])

/-- Each service that is called inside a line is listed, or its name is bound where the line stands. -/
def Manifest.ListsInlineCalls (m : Manifest) : Prop :=
  ∀ (i : Nat) (l : Line), m.lines[i]? = some l → ∀ n ∈ l.inlineCalls,
    n ∈ m.services ∨ (bound? (m.lines.take i) l.parent n).isSome = true

/-- Services that were listed since `s` are invoked by lines that were added since. -/
def Store.ListsInvoked (s t : Store) : Prop :=
  s.lines.length ≤ t.lines.length ∧ ∀ n ∈ t.services, n ∉ s.services →
    ∃ (i : Nat) (k : Line), s.lines.length ≤ i ∧ t.lines[i]? = some k ∧
      (k.method = .execute ∨ k.method = .when) ∧ k.service = some n

theorem Store.ListsInvoked.changes {s t u : Store} (h : t.Changes u) (ht : s.ListsInvoked t) : s.ListsInvoked u := by
  obtain ⟨q, old, new, hu, hold, -⟩ := h.lines
  obtain ⟨hlength, hnew⟩ := ht
  refine ⟨by rw [hu, List.length_append, ← hold.length_eq]; omega, fun n hn hs => ?_⟩
  by_cases hbefore : n ∈ t.services
  · obtain ⟨i, k, hi, hk, hmethod, hservice⟩ := hnew n hbefore hs
    obtain ⟨k', hk', hr⟩ := forall₂_getElem?_left hold hk
    refine ⟨i, k', hi, by rw [hu, getElem?_append_some hk'], hr.method ▸ hmethod, ?_⟩
    rw [hr.rest]
    exact hservice
  · cases h with
    | amend _ _ hv | declare _ _ _ _ hv | redeclare _ _ _ _ hv | copy _ _ _ _ _ hv => exact absurd (hv ▸ hn) hbefore
    | @emit p _ m ln d name hready he hl _ hv =>
      rw [hv] at hn
      cases hd : d.service with
      | none => exact absurd (by simpa [hd, Store.registerFor] using hn) hbefore
      | some n' =>
        rw [hd, Store.registerFor_services] at hn
        split at hn
        · exact absurd hn hbefore
        · rename_i hcondition
          obtain rfl : n = n' := by simpa [hbefore] using hn
          rcases he.service_cases with ⟨-, hnone | hcall⟩ | ⟨_, -, hmethod, -⟩
          · simp [hd] at hnone
          · exact absurd (Or.inl hcall) hcondition
          · refine ⟨t.lines.length, { t.newLine m ln d with name }, hlength, ?_, hmethod.imp_left And.left, hd⟩
            rw [hl, (t.kept_linkedTo p (t.fresh ln)).length_eq, List.getElem?_concat_length]

theorem Lowers.listsInvoked {p : Option Address} {s t : Store} {o : Outcome} (hl : Lowers p s o t) (hs : s.Ready p) :
    s.ListsInvoked t :=
  hl.keeps hs Store.ListsInvoked.changes ⟨le_rfl, fun _ hn hs => absurd hn hs⟩

/-- A service is invoked by a line if the line executes it, or listens to it where its name is no handle. -/
theorem Store.Serves.mem_services {s : Store} (hs : s.Serves) {n : String} :
    n ∈ s.services ↔ ∃ (j : Nat) (k : Line), s.lines[j]? = some k ∧ k.service = some n ∧
      (k.method = .execute ∨ k.method = .when ∧ bound? (s.lines.take j) k.parent n ≠ some .handle) := by
  constructor
  · intro hn
    rw [hs.listed, List.mem_eraseDups] at hn
    obtain ⟨j, k, hk, hinvoked⟩ := mem_invokedServices.mp hn
    obtain ⟨hmethod, hservice, hunbound⟩ := Line.invoked?_eq_some.mp hinvoked
    exact ⟨j, k, hk, hservice, hmethod.imp_right fun h => ⟨h, hunbound⟩⟩
  · rintro ⟨j, k, hk, hservice, hmethod | ⟨hmethod, hunbound⟩⟩
    · obtain ⟨n', hn', hservice'⟩ := hs.executed k (List.mem_of_getElem? hk) hmethod
      rwa [Option.some.inj (hservice.symm.trans hservice')]
    · rw [hs.listed, List.mem_eraseDups]
      exact mem_invokedServices.mpr ⟨j, k, hk, Line.invoked?_eq_some.mpr ⟨Or.inr hmethod, hservice, hunbound⟩⟩

/-- A statement adds to the services only what lines of its own execute or listen to, whatever is called inside
    their operands. So the services that are called inside lines are listed exactly if each of them whose name is
    not bound there is executed or listened to by some line as well. -/
theorem lists_inline_calls_iff (t : Tree) :
    (∀ c q u v, t.Begins c q u → c.lower q u = .ok () v → ∀ n ∈ v.services, n ∉ u.services →
      ∃ k ∈ v.lines.drop u.lines.length, (k.method = .execute ∨ k.method = .when) ∧ k.service = some n) ∧
    ∀ m, compile t = .ok m →
      (m.ListsInlineCalls ↔
        ∀ (i : Nat) (l : Line), m.lines[i]? = some l → ∀ n ∈ l.inlineCalls, bound? (m.lines.take i) l.parent n = none →
          ∃ (j : Nat) (k : Line), m.lines[j]? = some k ∧ k.service = some n ∧
            (k.method = .execute ∨ k.method = .when ∧ bound? (m.lines.take j) k.parent n ≠ some .handle)) := by
  constructor
  · intro c q u v hb hrun n hn hnew
    obtain ⟨i, k, hi, hk, hmethod, hservice⟩ := ((Tree.lower_done hrun).listsInvoked hb.ready).2 n hn hnew
    refine ⟨k, List.mem_iff_getElem?.mpr ⟨i - u.lines.length, ?_⟩, hmethod, hservice⟩
    rw [List.getElem?_drop, Nat.add_sub_cancel' hi, hk]
  · intro m hm
    obtain ⟨s, hs, rfl⟩ := compile_done hm
    have hserves : s.Serves := hs.keeps Store.ready_empty Store.Serves.changes .empty
    refine forall_congr' fun i => forall_congr' fun l => forall_congr' fun _ => forall₂_congr fun n _ => ?_
    rw [← Option.not_isSome_iff_eq_none, ← or_iff_not_imp_right]
    exact or_congr_left hserves.mem_services

/-- `db get k:(http fetch)`, and then other statements. -/
def Sample.inlineCall (rest : List Tree) : Tree :=
  let fetch := Shape.service "http" (some "fetch") [] [] 1
  Shape.script (Shape.service "db" (some "get") [Shape.argument (some "k") fetch 1] [] 1 :: rest)

/-- A service that is called inside an operand and executed later is listed, by the line that executes it. -/
theorem lists_inline_calls_iff_executed :
    ∃ t v m, t = Sample.inlineCall [Shape.service "http" none [] [] 2] ∧
      (t.Begins t none {} ∧ t.lower none ({} : Store) = .ok () v ∧ v.services = ["db", "http"] ∧
        ∃ k ∈ v.lines.drop 0, (k.method = .execute ∨ k.method = .when) ∧ k.service = some "http") ∧
      compile t = .ok m ∧ m.lines.map (·.inlineCalls) = [["http"], []] ∧ m.ListsInlineCalls := by
  generalize ht : Sample.inlineCall [Shape.service "http" none [] [] 2] = t
  have hlines : (compile t).map (fun m => (m.services, m.lines.map fun l => (l.inlineCalls, l.service, l.method))) =
      .ok (["db", "http"], [(["http"], some "db", .execute), ([], some "http", .execute)]) := by
    rw [← ht]
    decide +kernel
  cases hrun : t.lower none ({} : Store) with
  | error d v =>
    rw [compile, hrun] at hlines
    cases hlines
  | ok _ v =>
    have hm : compile t = .ok (v.manifest Manifest.formatVersion) := by rw [compile, hrun]
    rw [hm] at hlines
    obtain ⟨hservices, hlines⟩ : v.services = _ ∧ v.lines.map _ = _ := Prod.mk.inj (Except.ok.inj hlines)
    have hcalls : v.lines.map (·.inlineCalls) = [["http"], []] := by
      simpa [Function.comp_def] using congrArg (List.map (·.1)) hlines
    have hbegins : t.Begins t none {} := ⟨fun _ _ _ => true, fun report => Tree.lowerUntil_of_stop rfl⟩
    have hadded := (lists_inline_calls_iff t).1 t none {} v hbegins hrun "http" (by simp [hservices]) (by simp)
    refine ⟨t, v, _, rfl, ⟨hbegins, hrun, hservices, hadded⟩, hm, hcalls,
      ((lists_inline_calls_iff t).2 _ hm).mpr fun i l hl n hn _ => ?_⟩
    obtain rfl : n = "http" := by
      have hmem : l.inlineCalls ∈ v.lines.map (·.inlineCalls) := List.mem_map_of_mem (List.mem_of_getElem? hl)
      rw [hcalls] at hmem
      rcases List.mem_pair.mp hmem with h | h
      · simpa [h] using hn
      · simp [h] at hn
    have hsecond := congrArg (·[1]?) hlines
    rw [List.getElem?_map] at hsecond
    obtain ⟨k, hk, hfields⟩ := Option.map_eq_some_iff.mp hsecond
    simp only [Prod.mk.injEq] at hfields
    exact ⟨1, k, hk, hfields.2.1, Or.inl hfields.2.2⟩

/-- A service that is only called inside an operand is not listed. -/
theorem inline_call_unlisted :
    ∃ m, compile (Sample.inlineCall []) = .ok m ∧ m.services = ["db"] ∧ ¬ m.ListsInlineCalls := by
  obtain ⟨m, hm⟩ := ok_of_isOk (x := compile (Sample.inlineCall [])) (by decide +kernel)
  have hlines : (compile (Sample.inlineCall [])).map
      (fun m => (m.services, m.lines.map fun l => (l.inlineCalls, l.parent))) = .ok (["db"], [(["http"], none)]) := by
    decide +kernel
  rw [hm] at hlines
  obtain ⟨hservices, hlines⟩ := Prod.mk.inj (Except.ok.inj hlines)
  refine ⟨m, hm, hservices, fun hlists => ?_⟩
  have hfirst := congrArg (·[0]?) hlines
  rw [List.getElem?_map] at hfirst
  obtain ⟨l, hl, hfields⟩ := Option.map_eq_some_iff.mp hfirst
  simp only [Prod.mk.injEq] at hfields
  rcases hlists 0 l hl "http" (by simp [hfields.1]) with h | h
  · simp [hservices] at h
  · rw [hfields.2] at h
    cases h

/-! ### Services at any point of a session -/

section Sessions

variable {p : Option Address} {s t : Store} {o : Outcome} {h : Address} {names : List String}

theorem Store.registerService_nodup (hs : s.services.Nodup) (n : String) : (s.registerService n).services.Nodup := by
  unfold Store.registerService
  split
  · exact hs
  · rename_i hn
    refine hs.append (List.nodup_singleton n) ?_
    simpa using hn

theorem Store.emit_nodup (hs : s.services.Nodup) (m : Method) (ln : UInt32) (d : Draft) :
    (s.emit m ln d).services.Nodup := by
  show (s.registerFor m d.service).services.Nodup
  unfold Store.registerFor
  split
  · exact hs
  · split
    · exact hs
    · exact s.registerService_nodup hs _

theorem Opens.services_nodup (ho : Opens p s h names t) (hs : s.services.Nodup) : t.services.Nodup := by
  cases ho with
  | plain => exact s.emit_nodup hs _ _ _
  | linked =>
    rw [Store.linkExit_services]
    exact s.emit_nodup hs _ _ _
  | declared =>
    rw [Store.declareFunction_services]
    exact s.emit_nodup hs _ _ _

theorem Lowers.services_nodup (hl : Lowers p s o t) (hs : s.services.Nodup) : t.services.Nodup := by
  induction hl with
  | skip | stop | imports => exact hs
  | andThen _ _ ih ih' => exact ih' (ih hs)
  | continues =>
    rw [Store.addArgsToLast_services]
    exact hs
  | line | redeclared => exact Store.emit_nodup hs _ _ _
  | @named _ s m ln d => exact s.emit_nodup hs m ln d
  | header ho => exact ho.services_nodup hs
  | block ho _ _ ih | inside ho _ _ ih => exact ih (ho.services_nodup hs)
  | @loop _ _ _ u _ c _ ln _ _ _ _ _ ho _ ih =>
    show (u.copyLine c ln _).2.services.Nodup
    rw [Store.copyLine_services]
    exact ih (ho.services_nodup hs)

theorem Store.invoke_nodup (hs : s.services.Nodup) (m : Method) (ln : UInt32) (r : Request) (p : Option Address) :
    (Reply.ofInvocation s (s.invoke m ln r p)).2.services.Nodup := by
  unfold Store.invoke
  split
  · exact hs
  · show (if s.isHandle r.name then s else s.registerService r.name).services.Nodup
    split
    · exact hs
    · exact s.registerService_nodup hs r.name

theorem Step.run_services_nodup (step : Step) (hs : s.services.Nodup) : (step.run s).2.services.Nodup := by
  have hlowers {f : Option Address → LowerM Store Unit} (hf : Sound (fun d _ _ => d.Listed) f) (p : Option Address) :
      (Reply.ofLowering (f p s)).2.services.Nodup := by
    obtain ⟨o, hl⟩ := hf.lowers p s
    exact hl.services_nodup hs
  cases step with
  | lower tree parent => exact hlowers tree.lower_sound parent
  | lowerChildren tree parent => exact hlowers tree.lowerChildren_sound parent
  | execute ln call parent => exact s.invoke_nodup hs _ ln call parent
  | listen ln call parent => exact s.invoke_nodup hs .when ln call parent
  | addArgs address expected more => exact (s.addArgs_services address expected more).symm ▸ hs
  | linkExit address => exact (s.linkExit_services address).symm ▸ hs
  | copyLine address ln parent => exact (s.copyLine_services address ln parent).symm ▸ hs
  | declareFunction name address => exact (s.declareFunction_services name address).symm ▸ hs
  | append | nameLast | outputLast | openScope | closeScope | importModule => exact hs
  | line | isValue | isHandle | function | importsModule | services => exact hs

/-- No session registers a service twice. -/
theorem Store.Reachable.services_nodup (hs : s.Reachable) : s.services.Nodup := by
  obtain ⟨steps, rfl⟩ := hs
  suffices hkeeps : ∀ s : Store, s.services.Nodup → (Step.runAll s steps).2.services.Nodup from hkeeps {} .nil
  induction steps with
  | nil => exact fun _ hs => hs
  | cons step rest ih => exact fun _ hs => ih _ (step.run_services_nodup hs)

end Sessions

end Flowline
