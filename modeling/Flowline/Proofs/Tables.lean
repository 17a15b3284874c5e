import Flowline.IndexedStore
import Flowline.Proofs.Growth

/-! The tables of a store. They are coherent when the index has the place of every line, the ordinals count
    the lines from every source line, and the known services are those registered. On a coherent store every
    operation that reads the tables does what the search of the lines does, and leaves the tables coherent. -/

namespace Flowline

/-- The table has the place of every line, by its address. -/
def Indexes (index : List (Address × Nat)) (ls : List Line) : Prop :=
  ∀ a i, index.lookup a = some i ↔ ∃ l, ls[i]? = some l ∧ l.address = a

/-- The table counts the lines from every source line. -/
def Counts (ordinals : List (UInt32 × Nat)) (ls : List Line) : Prop :=
  ∀ n, (ordinals.lookup n).getD 0 = ls.countP (·.sourceLine == n)

/-- The links of a store are whole, and its tables tell of its lines and services what a search would. -/
structure IndexedStore.Coherent (s : IndexedStore) : Prop where
  linked : s.Linked
  index : Indexes s.index s.lines
  ordinals : Counts s.ordinals s.lines
  known : ∀ name, name ∈ s.known ↔ name ∈ s.services

/-! ### Places of lines -/

namespace Indexes

variable {index : List (Address × Nat)} {ls ls' : List Line} {a : Address} {i : Nat}

theorem lookup_eq_none (h : Indexes index ls) : index.lookup a = none ↔ ∀ l ∈ ls, l.address ≠ a := by
  constructor
  · intro hnone l hl ha
    obtain ⟨i, hi⟩ := List.mem_iff_getElem?.mp hl
    rw [(h a i).mpr ⟨l, hi, ha⟩] at hnone
    cases hnone
  · intro hne
    cases hi : index.lookup a with
    | none => rfl
    | some i =>
      obtain ⟨l, hl, ha⟩ := (h a i).mp hi
      exact absurd ha (hne l (List.mem_of_getElem? hl))

/-- No two lines are at one address, since the table has one place for it. -/
theorem place_eq_iff (h : Indexes index ls) (hi : index.lookup a = some i) {j : Nat} {l : Line} (hj : ls[j]? = some l) :
    i = j ↔ l.address = a := by
  constructor
  · rintro rfl
    obtain ⟨k, hk, ha⟩ := (h a i).mp hi
    rw [hj] at hk
    rw [Option.some.inj hk, ha]
  · intro ha
    have hplace := (h a j).mpr ⟨l, hj, ha⟩
    rw [hi] at hplace
    exact Option.some.inj hplace

theorem address_ne_of_lt (h : Indexes index ls) (hi : index.lookup a = some i) {j : Nat} {l : Line}
    (hj : ls[j]? = some l) (hlt : j < i) : l.address ≠ a :=
  mt (h.place_eq_iff hi hj).mpr (Nat.ne_of_gt hlt)

theorem of_forall₂ (h : Indexes index ls) {R : Line → Line → Prop} (hR : ∀ {l l'}, R l l' → l'.address = l.address)
    (hs : List.Forall₂ R ls ls') : Indexes index ls' := by
  intro a i
  rw [h a i]
  constructor
  · rintro ⟨l, hl, ha⟩
    obtain ⟨l', hl', hr⟩ := forall₂_getElem?_left hs hl
    exact ⟨l', hl', (hR hr).trans ha⟩
  · rintro ⟨l', hl', ha⟩
    obtain ⟨l, hl, hr⟩ := forall₂_getElem?_right hs hl'
    exact ⟨l, hl, (hR hr).symm.trans ha⟩

theorem concat (h : Indexes index ls) {k : Line} (hk : ∀ l ∈ ls, l.address ≠ k.address) :
    Indexes ((k.address, ls.length) :: index) (ls ++ [k]) := by
  intro a i
  rw [List.lookup_cons]
  by_cases ha : a = k.address
  · subst ha
    simp only [beq_self_eq_true, Option.some.injEq]
    constructor
    · rintro rfl
      exact ⟨k, List.getElem?_concat_length, rfl⟩
    · rintro ⟨l, hl, hla⟩
      rcases getElem?_concat_cases hl with hl | ⟨rfl, -⟩
      · exact absurd hla (hk l (List.mem_of_getElem? hl))
      · rfl
  · simp only [beq_eq_false_iff_ne.mpr ha]
    rw [h a i]
    constructor
    · rintro ⟨l, hl, hla⟩
      exact ⟨l, getElem?_append_some hl, hla⟩
    · rintro ⟨l, hl, hla⟩
      rcases getElem?_concat_cases hl with hl | ⟨-, rfl⟩
      · exact ⟨l, hl, hla⟩
      · exact absurd hla.symm ha

/-- The line at the place in the table is the one that a search finds. -/
theorem getElem?_eq_find? (h : Indexes index ls) (a : Address) :
    (index.lookup a).bind (fun i => ls[i]?) = ls.find? (·.address == a) := by
  cases hi : index.lookup a with
  | none =>
    have hnone := h.lookup_eq_none.mp hi
    rw [Option.bind_none, eq_comm, List.find?_eq_none]
    intro l hl
    simp [hnone l hl]
  | some i =>
    obtain ⟨l, hl, ha⟩ := (h a i).mp hi
    rw [Option.bind_some, hl, eq_comm, List.find?_eq_some_iff_getElem]
    obtain ⟨hlt, hget⟩ := List.getElem?_eq_some_iff.mp hl
    refine ⟨beq_iff_eq.mpr ha, i, hlt, hget, fun j hj => ?_⟩
    simpa using h.address_ne_of_lt hi (List.getElem?_eq_getElem (Nat.lt_trans hj hlt)) hj

/-- To change the line at the place in the table is to change every line at the address. -/
theorem modify_eq_map (h : Indexes index ls) (hi : index.lookup a = some i) (f : Line → Line) :
    ls.modify i f = ls.map fun l => if l.address = a then f l else l := by
  refine List.ext_getElem? fun j => ?_
  rw [List.getElem?_modify, List.getElem?_map]
  cases hj : ls[j]? with
  | none => rfl
  | some l =>
    have hplace := h.place_eq_iff hi hj
    by_cases ha : l.address = a
    · simp [hplace.mpr ha, ha]
    · simp [mt hplace.mp ha, ha]

theorem map_eq_self (h : Indexes index ls) (hi : index.lookup a = none) (f : Line → Line) :
    (ls.map fun l => if l.address = a then f l else l) = ls := by
  refine (List.map_congr_left fun l hl => ?_).trans ls.map_id
  rw [if_neg (h.lookup_eq_none.mp hi l hl)]
  rfl

/-- The lines before the place in the table are those before the first line at the address. -/
theorem take_eq_takeWhile (h : Indexes index ls) (hi : index.lookup a = some i) :
    ls.take i = ls.takeWhile (·.address != a) := by
  obtain ⟨l, hl, ha⟩ := (h a i).mp hi
  obtain ⟨hlt, hget⟩ := List.getElem?_eq_some_iff.mp hl
  have hsplit : ls = ls.take i ++ l :: ls.drop (i + 1) := by
    rw [← hget, List.getElem_cons_drop, List.take_append_drop]
  have hbefore : ∀ k ∈ ls.take i, (k.address != a) = true := by
    intro k hk
    obtain ⟨j, hj, rfl⟩ := List.mem_take_iff_getElem.mp hk
    have hji : j < i := by omega
    simpa using h.address_ne_of_lt hi (List.getElem?_eq_getElem (Nat.lt_trans hji hlt)) hji
  conv_rhs => rw [hsplit]
  rw [List.takeWhile_append_of_pos hbefore, List.takeWhile_cons_of_neg (by simp [ha]), List.append_nil]

theorem drop_eq_dropWhile (h : Indexes index ls) (hi : index.lookup a = some i) :
    ls.drop i = ls.dropWhile (·.address != a) := by
  have hsplit : ls.takeWhile (·.address != a) ++ ls.drop i = ls := by
    rw [← h.take_eq_takeWhile hi, List.take_append_drop]
  exact List.append_cancel_left (hsplit.trans List.takeWhile_append_dropWhile.symm)

end Indexes

/-! ### Numbers of lines -/

namespace Counts

variable {ordinals : List (UInt32 × Nat)} {ls ls' : List Line}

theorem of_forall₂ (h : Counts ordinals ls) {R : Line → Line → Prop}
    (hR : ∀ {l l'}, R l l' → l'.sourceLine = l.sourceLine) (hs : List.Forall₂ R ls ls') : Counts ordinals ls' :=
  fun n => (h n).trans (countP_of_forall₂ hR hs n).symm

theorem concat (h : Counts ordinals ls) (k : Line) :
    Counts ((k.sourceLine, (ordinals.lookup k.sourceLine).getD 0 + 1) :: ordinals) (ls ++ [k]) := by
  intro n
  rw [List.lookup_cons, List.countP_append, List.countP_singleton]
  by_cases hn : n = k.sourceLine
  · subst hn
    simp [h k.sourceLine]
  · simp only [beq_eq_false_iff_ne.mpr hn, beq_eq_false_iff_ne.mpr (Ne.symm hn), Bool.false_eq_true, if_false, h n,
      Nat.add_zero]

end Counts

/-! ### Operations -/

namespace IndexedStore

/-- The store without its tables is `u`, and the tables are coherent. -/
structure Refines (s : IndexedStore) (u : Store) : Prop where
  store : s.toStore = u
  coherent : s.Coherent

namespace Coherent

variable {s : IndexedStore}

/-- Lines that are changed in place keep their addresses and source lines, and so the tables. -/
theorem amend (hs : s.Coherent) {u : Store} (hu : u.Linked) {R : Line → Line → Prop}
    (hR : ∀ {l l'}, R l l' → l'.address = l.address ∧ l'.sourceLine = l.sourceLine)
    (hlines : List.Forall₂ R s.lines u.lines) (hservices : u.services = s.services) :
    ({ s with toStore := u } : IndexedStore).Refines u where
  store := rfl
  coherent :=
    { linked := hu
      index := hs.index.of_forall₂ (fun hr => (hR hr).1) hlines
      ordinals := hs.ordinals.of_forall₂ (fun hr => (hR hr).2) hlines
      known := fun name => (hs.known name).trans (by rw [hservices]) }

theorem amend_sameLinks (hs : s.Coherent) {u : Store} (hlines : List.Forall₂ Line.SameLinks s.lines u.lines)
    (hservices : u.services = s.services) : ({ s with toStore := u } : IndexedStore).Refines u :=
  hs.amend (hs.linked.of_sameLinks hlines) (fun hr => ⟨hr.address, hr.sourceLine⟩) hlines hservices

theorem amend_lines (hs : s.Coherent) {u : Store} (hlines : u.lines = s.lines) (hservices : u.services = s.services) :
    ({ s with toStore := u } : IndexedStore).Refines u :=
  hs.amend_sameLinks (hlines ▸ List.forall₂_same.mpr fun l _ => .refl l) hservices

theorem line?_eq (hs : s.Coherent) (a : Address) : s.line? a = s.toStore.line? a :=
  hs.index.getElem?_eq_find? a

end Coherent

variable {s : IndexedStore}

theorem changeLine_eq (h : Indexes s.index s.lines) (a : Address) (f : Line → Line) :
    s.changeLine a f = { s with lines := s.lines.map fun l => if l.address = a then f l else l } := by
  unfold changeLine position?
  cases hi : s.index.lookup a with
  | none => simp only [h.map_eq_self hi f]
  | some i => simp only [h.modify_eq_map hi f]

theorem link_eq (h : Indexes s.index s.lines) (parent : Option Address) (a : Address) :
    s.link parent a = { s with lines := s.linkedTo parent a } := by
  have hlines := Line.forall₂_updateLast (R := fun l l' => l'.address = l.address)
    (f := fun l => { l with next := some a }) (fun _ => rfl) (fun _ => rfl) s.lines
  unfold link Store.linkedTo
  cases parent with
  | none =>
    have hnone : Line.enteredBy none a = id := rfl
    simp only [hnone, List.map_id]
  | some header =>
    have hheader : Line.enteredBy (some header) a = fun l => if l.address = header then l.withEnter a else l := by
      funext l
      simp only [Line.enteredBy, Option.some.injEq, eq_comm]
    rw [hheader]
    exact changeLine_eq (s := { s with lines := Line.updateLast (fun l => { l with next := some a }) s.lines })
      (h.of_forall₂ (fun hr => hr) hlines) header (·.withEnter a)

namespace Coherent

/-- Appending counts the line, and puts its place into the index. -/
theorem append_eq (hs : s.Coherent) (m : Method) (ln : UInt32) (d : Draft) :
    s.append m ln d = ((s.toStore.append m ln d).1,
      { s with
        lines := (s.toStore.append m ln d).2.lines
        index := (s.fresh ln, s.lines.length) :: s.index
        ordinals := (ln, s.ordinal ln + 1) :: s.ordinals }) := by
  have hfresh : .ofSource ln (s.ordinal ln) = s.fresh ln := by
    rw [ordinal, hs.ordinals ln]
    rfl
  have hlink := link_eq (s := { s with ordinals := (ln, s.ordinal ln + 1) :: s.ordinals }) hs.index d.parent (s.fresh ln)
  have hlength : (s.linkedTo d.parent (s.fresh ln)).length = s.lines.length :=
    (s.touched_linkedTo d.parent (s.fresh ln)).length_eq.symm
  simp only [append, allocate, hfresh, hlink, push]
  rw [← hlength]
  rfl

theorem append (hs : s.Coherent) (m : Method) (ln : UInt32) (d : Draft) :
    (s.append m ln d).1 = (s.toStore.append m ln d).1 ∧
      (s.append m ln d).2.Refines (s.toStore.append m ln d).2 := by
  have htouched := s.touched_linkedTo d.parent (s.fresh ln)
  rw [hs.append_eq]
  refine ⟨rfl, rfl, hs.linked.append m ln d, ?_, ?_, hs.known⟩
  · have hindex := (hs.index.of_forall₂ Store.Touched.address htouched).concat (k := s.newLine m ln d) fun l hl => by
      obtain ⟨k, hk, hr⟩ := forall₂_mem_right htouched l hl
      rw [hr.address]
      exact s.fresh_ne hs.linked ln k hk
    rw [← htouched.length_eq] at hindex
    exact hindex
  · exact (hs.ordinals.of_forall₂ (fun hr => by rw [hr.rest]) htouched).concat (s.newLine m ln d)

theorem addArgs (hs : s.Coherent) (a : Address) (m : Method) (more : List Value) :
    (s.addArgs a m more).1 = (s.toStore.addArgs a m more).1 ∧
      (s.addArgs a m more).2.Refines (s.toStore.addArgs a m more).2 := by
  have heq : s.addArgs a m more =
      ((s.toStore.addArgs a m more).1, { s with toStore := (s.toStore.addArgs a m more).2 }) := by
    unfold IndexedStore.addArgs Store.addArgs
    rw [hs.line?_eq, changeLine_eq hs.index]
    cases s.toStore.line? a with
    | none => rfl
    | some line => by_cases hm : line.method = m <;> simp only [hm, if_true, if_false]
  rw [heq]
  exact ⟨rfl, hs.amend_sameLinks (s.sameLinks_addArgs a m more) (s.addArgs_services a m more)⟩

theorem addArgsToLast (hs : s.Coherent) (m : Method) (more : List Value) :
    (s.addArgsToLast m more).1 = (s.toStore.addArgsToLast m more).1 ∧
      (s.addArgsToLast m more).2.Refines (s.toStore.addArgsToLast m more).2 := by
  unfold IndexedStore.addArgsToLast Store.addArgsToLast
  cases s.last? with
  | none => exact ⟨rfl, rfl, hs⟩
  | some a => exact hs.addArgs a m more

theorem amend_last (hs : s.Coherent) {u : Store} {f : Line → Line} (hf : ∀ l : Line, l.SameLinks (f l))
    (hlines : u.lines = Line.updateLast f s.lines) (hservices : u.services = s.services) :
    ({ s with toStore := u } : IndexedStore).Refines u :=
  hs.amend_sameLinks (hlines ▸ Line.forall₂_updateLast Line.SameLinks.refl hf s.lines) hservices

theorem nameLast (hs : s.Coherent) (path : List Segment) :
    ({ s with toStore := s.toStore.nameLast path } : IndexedStore).Refines (s.toStore.nameLast path) :=
  hs.amend_last (f := fun l => { l with name := some path }) (fun _ => ⟨rfl, rfl, rfl, rfl, rfl, rfl, rfl⟩) rfl rfl

theorem outputLast (hs : s.Coherent) (names : List String) :
    ({ s with toStore := s.toStore.outputLast names } : IndexedStore).Refines (s.toStore.outputLast names) :=
  hs.amend_last (f := fun l => { l with output := some names }) (fun _ => ⟨rfl, rfl, rfl, rfl, rfl, rfl, rfl⟩) rfl rfl

theorem declareFunction (hs : s.Coherent) (name : String) (a : Address) :
    ({ s with toStore := (s.toStore.declareFunction name a).2 } : IndexedStore).Refines
      (s.toStore.declareFunction name a).2 :=
  hs.amend_lines (s.declareFunction_lines name a) (s.declareFunction_services name a)

theorem linkExit (hs : s.Coherent) (a : Address) : (s.linkExit a).Refines (s.toStore.linkExit a) := by
  have heq : s.linkExit a = { s with toStore := s.toStore.linkExit a } := by
    unfold IndexedStore.linkExit Store.linkExit position?
    cases hi : s.index.lookup a with
    | none =>
      have hdrop : s.lines.dropWhile (·.address != a) = [] := by
        rw [List.dropWhile_eq_nil_iff]
        simpa using hs.index.lookup_eq_none.mp hi
      rw [hdrop]
    | some i =>
      obtain ⟨target, htarget, -⟩ := (hs.index a i).mp hi
      have hdrop : s.lines.drop i = target :: s.lines.drop (i + 1) := by
        rw [List.drop_eq_getElem?_toList_append, htarget]
        rfl
      rw [← hs.index.drop_eq_dropWhile hi, ← hs.index.take_eq_takeWhile hi]
      simp only [htarget, hdrop, Option.bind_some]
  rw [heq]
  exact hs.amend (hs.linked.linkExit a) (fun hr => ⟨by rw [hr], by rw [hr]⟩) (s.forall₂_linkExit a)
    (s.linkExit_services a)

theorem copyLine (hs : s.Coherent) (a : Address) (ln : UInt32) (parent : Option Address) :
    (s.copyLine a ln parent).1 = (s.toStore.copyLine a ln parent).1 ∧
      (s.copyLine a ln parent).2.Refines (s.toStore.copyLine a ln parent).2 := by
  unfold IndexedStore.copyLine Store.copyLine
  rw [hs.line?_eq]
  cases s.toStore.line? a with
  | none => exact ⟨rfl, rfl, hs⟩
  | some line =>
    obtain ⟨haddress, hstore, hcoherent⟩ := hs.append line.method ln (line.draftUnder parent)
    refine ⟨congrArg some haddress, ?_⟩
    simp only [← hstore]
    exact hcoherent.amend_last (f := fun l => { l with name := line.name })
      (fun _ => ⟨rfl, rfl, rfl, rfl, rfl, rfl, rfl⟩) rfl rfl

theorem openScope (hs : s.Coherent) (header : Address) (output : List String) :
    (s.openScope header output).Refines (s.toStore.openScope header output) := by
  unfold IndexedStore.openScope
  rw [hs.line?_eq]
  exact hs.amend_lines rfl rfl

theorem registerService (hs : s.Coherent) (name : String) :
    (s.registerService name).Refines (s.toStore.registerService name) := by
  have hknown : s.known.contains name = s.services.contains name := by
    simp only [List.contains_eq_mem, hs.known]
  unfold IndexedStore.registerService Store.registerService
  rw [hknown]
  split
  · exact ⟨rfl, hs⟩
  · exact ⟨rfl, hs.linked.of_lines rfl, hs.index, hs.ordinals, fun n => by simp [hs.known, or_comm]⟩

end Coherent

end IndexedStore

end Flowline
