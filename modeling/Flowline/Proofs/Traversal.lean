import Flowline.Proofs.Checked

/-! Going through a manifest. A reader of a manifest starts at its entrypoint and follows `next`, looking each
    address up among the lines. The check compares each line with its neighbour alone; because addresses are unique,
    a lookup finds the very neighbour, so the reader passes all lines in order and ends at the last one. -/

namespace Flowline

namespace Manifest

/-- From `start`, following `next` passes these lines one after the other, and leads on to `stop`. -/
inductive Traverses (m : Manifest) : Option Address → List Line → Option Address → Prop
  | here {a : Option Address} : m.Traverses a [] a
  | step {a : Address} {l : Line} {passed : List Line} {stop : Option Address} (hl : m.line? a = some l)
      (h : m.Traverses l.next passed stop) : m.Traverses (some a) (l :: passed) stop

variable {m : Manifest}

theorem traverses_nil {start stop : Option Address} : m.Traverses start [] stop ↔ stop = start := by
  constructor
  · rintro ⟨⟩
    rfl
  · rintro rfl
    exact .here

theorem traverses_cons {start stop : Option Address} {l : Line} {passed : List Line} :
    m.Traverses start (l :: passed) stop ↔ start.bind m.line? = some l ∧ m.Traverses l.next passed stop := by
  constructor
  · rintro (_ | ⟨hl, h⟩)
    exact ⟨hl, h⟩
  · rintro ⟨hl, h⟩
    obtain ⟨a, rfl, hl⟩ := Option.bind_eq_some_iff.mp hl
    exact .step hl h

namespace WellLinked

/-- The address of a line leads to the line. -/
theorem line?_address (h : m.WellLinked) {l : Line} (hl : l ∈ m.lines) : m.line? l.address = some l :=
  (line?_iff h.unique).mpr ⟨hl, rfl⟩

theorem next_of_split (h : m.WellLinked) {before after : List Line} {l : Line} (hm : m.lines = before ++ l :: after) :
    l.next = after.head?.map (·.address) := by
  have hl : m.lines[before.length]? = some l := by simp [hm]
  rw [h.next _ _ hl, hm, List.getElem?_append_right (Nat.le_add_right _ 1), Nat.add_sub_cancel_left,
    List.head?_eq_getElem?]
  rfl

/-- From the first of the lines that are left, exactly the beginnings of their row are passed. -/
theorem traverses_iff (h : m.WellLinked) {before left passed : List Line} {stop : Option Address}
    (hm : m.lines = before ++ left) :
    m.Traverses (left.head?.map (·.address)) passed stop ↔
      ∃ ahead, left = passed ++ ahead ∧ stop = ahead.head?.map (·.address) := by
  -- the row that is left gets shorter with each line passed, while `before` takes that line up
  induction passed generalizing before left with
  | nil => simp [traverses_nil]
  | cons l passed ih =>
    rw [traverses_cons]
    cases left with
    | nil => simp
    | cons k after =>
      have hk : m.line? k.address = some k := h.line?_address (by simp [hm])
      have hafter : m.lines = (before ++ [k]) ++ after := by simp [hm]
      have hrest := ih hafter
      rw [← h.next_of_split hm] at hrest
      simp only [List.head?_cons, Option.map_some, Option.bind_some, hk, Option.some.injEq, List.cons_append,
        List.cons.injEq]
      constructor
      · rintro ⟨rfl, hpassed⟩
        obtain ⟨ahead, hahead, hstop⟩ := hrest.mp hpassed
        exact ⟨ahead, ⟨rfl, hahead⟩, hstop⟩
      · rintro ⟨ahead, ⟨rfl, hahead⟩, hstop⟩
        exact ⟨rfl, hrest.mpr ⟨ahead, hahead, hstop⟩⟩

theorem entered_line? (h : m.WellLinked) {l : Line} (hl : l ∈ m.lines) {a : Address} (ha : l.enter = some a) :
    ∃ k, m.line? a = some k ∧ k.parent = some l.address := by
  obtain ⟨k, hk, rfl⟩ := h.target l hl .enter a ha
  exact ⟨k, h.line?_address hk, h.body l hl k hk ha⟩

end WellLinked

end Manifest

/-- In a manifest that passes its check, following `next` from the entrypoint passes the lines in their order, each of
    them once, and leads nowhere from the last line and from no other; and the address at which a line is entered
    leads to a line whose parent is that line. -/
theorem checked_traversal {m : Manifest} (h : m.check = .ok ()) :
    (∀ passed stop, m.Traverses m.entrypoint passed stop ↔
        ∃ ahead, m.lines = passed ++ ahead ∧ stop = ahead.head?.map (·.address)) ∧
      (∀ passed, m.Traverses m.entrypoint passed none ↔ passed = m.lines) ∧
      (m.lines.map (·.address)).Nodup ∧
      ∀ l ∈ m.lines, ∀ a, l.enter = some a → ∃ k, m.line? a = some k ∧ k.parent.bind m.line? = some l := by
  have hm := Manifest.check_eq_ok_iff.mp h
  have hall : ∀ passed stop, m.Traverses m.entrypoint passed stop ↔
      ∃ ahead, m.lines = passed ++ ahead ∧ stop = ahead.head?.map (·.address) := fun passed stop => by
    have hwhole : m.lines = [] ++ m.lines := rfl
    rw [hm.entrypoint, hm.traverses_iff hwhole]
  refine ⟨hall, fun passed => ?_, hm.unique, fun l hl a ha => ?_⟩
  · rw [hall]
    constructor
    · rintro ⟨ahead, hlines, hstop⟩
      obtain rfl : ahead = [] := by simpa using hstop.symm
      rw [hlines, List.append_nil]
    · rintro rfl
      exact ⟨[], by simp, rfl⟩
  · obtain ⟨k, hk, hparent⟩ := hm.entered_line? hl ha
    exact ⟨k, hk, by rw [hparent, Option.bind_some, hm.line?_address hl]⟩

/-- A loop of two lines and the line after it, under addresses that no source line gives. -/
def Sample.handmade : Manifest where
  lines := [
    { address := ⟨"loop"⟩, method := .while_, sourceLine := 1, enter := some ⟨"first"⟩, next := some ⟨"first"⟩ },
    { address := ⟨"first"⟩, method := .set_, sourceLine := 1, parent := some ⟨"loop"⟩, next := some ⟨"second"⟩ },
    { address := ⟨"second"⟩, method := .break_, sourceLine := 3, parent := some ⟨"loop"⟩, next := some ⟨"after"⟩ },
    { address := ⟨"after"⟩, method := .throw, sourceLine := 2 }]
  version := Manifest.formatVersion
  services := []
  functions := []
  entrypoint := some ⟨"loop"⟩
  modules := []

theorem checked_traversal_handmade :
    Sample.handmade.check = .ok () ∧
      Sample.handmade.Traverses (some ⟨"loop"⟩) Sample.handmade.lines none ∧
      Sample.handmade.Traverses (some ⟨"loop"⟩) (Sample.handmade.lines.take 2) (some ⟨"second"⟩) ∧
      ∃ k, Sample.handmade.line? ⟨"first"⟩ = some k ∧
        k.parent.bind Sample.handmade.line? = Sample.handmade.lines.head? := by
  have hcheck : Sample.handmade.check = .ok () := rfl
  obtain ⟨hsome, hall, -, hentered⟩ := checked_traversal hcheck
  refine ⟨hcheck, (hall _).mpr rfl, (hsome _ _).mpr ⟨_, (List.take_append_drop 2 _).symm, rfl⟩, ?_⟩
  exact hentered _ List.mem_cons_self _ rfl

end Flowline
