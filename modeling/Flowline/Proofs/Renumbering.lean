import Flowline.Proofs.Alike

/-! Source lines are only labels. If the lines of a script are numbered anew, no two alike, the program is the same
    but for the numbers: in addresses, in the links between lines, and in the variables that are named after
    addresses. Two runs of lowering go alike, with stores that mirror each other (`Store.Mirrors`). -/

namespace Flowline

/-! ### Addresses -/

namespace Text

theorem pieces_of_notMem {sep : Char} {cs : List Char} (h : sep ∉ cs) : pieces sep cs = [cs] := by
  induction cs with
  | nil => rfl
  | cons c cs ih =>
    have hc : sep ≠ c := List.ne_of_not_mem_cons h
    rw [pieces, if_neg hc.symm, ih (List.not_mem_of_not_mem_cons h)]

theorem pieces_append {sep : Char} {cs : List Char} (h : sep ∉ cs) (rest : List Char) :
    pieces sep (cs ++ sep :: rest) = cs :: pieces sep rest := by
  induction cs with
  | nil => rw [List.nil_append, pieces, if_pos rfl]
  | cons c cs ih =>
    have hc : sep ≠ c := List.ne_of_not_mem_cons h
    rw [List.cons_append, pieces, if_neg hc.symm, ih (List.not_mem_of_not_mem_cons h)]

end Text

namespace Address

/-- The source line and the ordinal that an address tells. -/
def source? (a : Address) : Option (UInt32 × Nat) :=
  let numbers := match (Text.dotted a.text).map String.toNat? with
    | [some line] => some (UInt32.ofNat line, 0)
    | [some line, some ordinal] => some (UInt32.ofNat line, ordinal)
    | _ => none
  numbers.filter fun x => ofSource x.1 x.2 = a

theorem dotted_ofSource (n : UInt32) (k : Nat) :
    Text.dotted (ofSource n k).text = if k = 0 then [toString n.toNat] else [toString n.toNat, toString k] := by
  have hn := dot_notMem_digits n.toNat
  unfold ofSource Text.dotted
  split
  · rw [Text.pieces_of_notMem hn, List.map_singleton, String.ofList_toList]
  · have htext : (toString n.toNat ++ "." ++ toString k).toList =
        (toString n.toNat).toList ++ '.' :: (toString k).toList := by
      simp [String.toList_append]
    show (Text.pieces '.' (toString n.toNat ++ "." ++ toString k).toList).map String.ofList = _
    rw [htext, Text.pieces_append hn, Text.pieces_of_notMem (dot_notMem_digits k)]
    simp only [List.map_cons, List.map_nil, String.ofList_toList]

theorem source?_ofSource (n : UInt32) (k : Nat) : (ofSource n k).source? = some (n, k) := by
  unfold source?
  rw [dotted_ofSource]
  rcases Nat.eq_zero_or_pos k with rfl | hpos
  · simp
  · simp [hpos.ne']

theorem source?_eq_some {a : Address} {n : UInt32} {k : Nat} : a.source? = some (n, k) ↔ a = ofSource n k := by
  constructor
  · intro h
    unfold source? at h
    exact (of_decide_eq_true (Option.filter_eq_some_iff.mp h).2).symm
  · rintro rfl
    exact source?_ofSource n k

variable {f : UInt32 → UInt32}

/-- The address with its source line numbered anew. -/
def renumber (f : UInt32 → UInt32) (a : Address) : Address :=
  match a.source? with
  | some (n, k) => ofSource (f n) k
  | none => a

theorem renumber_ofSource (f : UInt32 → UInt32) (n : UInt32) (k : Nat) :
    (ofSource n k).renumber f = ofSource (f n) k := by
  rw [renumber, source?_ofSource]

theorem renumber_injective (hf : Function.Injective f) : Function.Injective (renumber f) := by
  intro a b h
  unfold renumber at h
  cases ha : a.source? with
  | none =>
    cases hb : b.source? with
    | none => simpa [ha, hb] using h
    | some x =>
      obtain rfl : a = ofSource (f x.1) x.2 := by simpa [ha, hb] using h
      rw [source?_ofSource] at ha
      cases ha
  | some x =>
    cases hb : b.source? with
    | none =>
      obtain rfl : ofSource (f x.1) x.2 = b := by simpa [ha, hb] using h
      rw [source?_ofSource] at hb
      cases hb
    | some y =>
      have hxy : ofSource (f x.1) x.2 = ofSource (f y.1) y.2 := by simpa [ha, hb] using h
      obtain ⟨hline, hordinal⟩ := ofSource_inj hxy
      have hsame : x = y := Prod.ext (hf hline) hordinal
      rw [source?_eq_some.mp ha, source?_eq_some.mp hb, hsame]

end Address

/-! ### Programs with their lines numbered anew -/

section Renumber

variable (f : UInt32 → UInt32)

/-- The name of a variable; one that is named after an address is named after the new one. -/
def Text.renumberName (name : String) : String :=
  if Text.isOperandName name then (Address.renumber f ⟨String.ofList (name.toList.drop 4)⟩).operandName else name

/-- A segment of a path with its variable renamed. -/
def Segment.renumber : Segment → Segment
  | .name text => .name (Text.renumberName f text)
  | .computed value => .computed value

/-- A value with the variable renamed that it may be. Values that stand in other values are written in the
    script, and they stay as they are. -/
def Value.renumber : Value → Value
  | .path segments => .path (segments.map (·.renumber f))
  | value => value

/-- A line with the source lines numbered anew. -/
def Line.renumber (l : Line) : Line where
  address := l.address.renumber f
  method := l.method
  sourceLine := f l.sourceLine
  name := l.name.map (·.map (·.renumber f))
  service := l.service
  command := l.command
  function := l.function
  args := l.args.map (·.map (·.renumber f))
  output := l.output
  enter := l.enter.map (·.renumber f)
  exit := l.exit.map (·.renumber f)
  parent := l.parent.map (·.renumber f)
  next := l.next.map (·.renumber f)

/-- A line to be appended, with the source lines numbered anew. -/
def Draft.renumber (d : Draft) : Draft :=
  { d with args := d.args.map (·.map (·.renumber f)), parent := d.parent.map (·.renumber f) }

/-- A program with the source lines numbered anew. -/
def Manifest.renumber (m : Manifest) : Manifest where
  lines := m.lines.map (·.renumber f)
  version := m.version
  services := m.services
  functions := m.functions.map fun declared => (declared.1, declared.2.renumber f)
  entrypoint := m.entrypoint.map (·.renumber f)
  modules := m.modules

end Renumber

section Plain

variable {f : UInt32 → UInt32}

theorem Text.isOperandName_operandName (a : Address) : Text.isOperandName a.operandName = true := by
  rw [Text.isOperandName, Address.operandName, String.toList_append]
  exact List.isPrefixOf_iff_prefix.mpr (List.prefix_append _ _)

theorem Text.renumberName_operandName (a : Address) :
    Text.renumberName f a.operandName = (a.renumber f).operandName := by
  have hdrop : a.operandName.toList.drop 4 = a.text.toList := by
    rw [Address.operandName, String.toList_append]
    rfl
  rw [Text.renumberName, if_pos (Text.isOperandName_operandName a), hdrop, String.ofList_toList]

theorem Text.renumberName_plain {name : String} (h : Text.isOperandName name = false) :
    Text.renumberName f name = name := by
  rw [Text.renumberName, h]
  rfl

theorem Text.isOperandName_renumberName (name : String) :
    Text.isOperandName (Text.renumberName f name) = Text.isOperandName name := by
  unfold Text.renumberName
  split
  · rename_i h
    rw [h, Text.isOperandName_operandName]
  · rfl

theorem Segment.Plain.renumber {segment : Segment} (h : segment.Plain) : segment.renumber f = segment := by
  cases segment with
  | name text => rw [Segment.renumber, Text.renumberName_plain h]
  | computed value => rfl

theorem Segment.renumber_all {segments : List Segment} (h : ∀ segment ∈ segments, segment.Plain) :
    segments.map (·.renumber f) = segments := by
  rw [List.map_congr_left fun segment hmem => (h segment hmem).renumber, List.map_id']

theorem Value.Plain.renumber {v : Value} (h : v.Plain) : v.renumber f = v := by
  cases v with
  | path segments => rw [Value.renumber, Segment.renumber_all h]
  | _ => rfl

theorem Value.renumber_all {vs : List Value} (h : ∀ v ∈ vs, v.Plain) : vs.map (·.renumber f) = vs := by
  rw [List.map_congr_left fun v hmem => (h v hmem).renumber, List.map_id']

theorem Value.renumber_operand (a : Address) :
    (Value.ofNames [a.operandName]).renumber f = .ofNames [(a.renumber f).operandName] := by
  simp only [Value.ofNames, Value.renumber, List.map_cons, List.map_nil, Segment.renumber, Text.renumberName_operandName]

end Plain

/-! ### Stores that mirror each other -/

/-- Two frames of the same body, which bind the same names apart from those of operands. -/
structure Frame.Mirrors (f : UInt32 → UInt32) (a b : Frame) : Prop where
  owner : b.owner = a.owner.map (·.renumber f)
  lookup? : ∀ name, Text.isOperandName name = false → b.lookup? name = a.lookup? name

/-- Two stores of the same program, the second with the source lines numbered anew. -/
structure Store.Mirrors (f : UInt32 → UInt32) (s s' : Store) : Prop where
  lines : s'.lines = s.lines.map (·.renumber f)
  frames : List.Forall₂ (Frame.Mirrors f) s.scopes.frames s'.scopes.frames
  modules : s'.modules = s.modules
  functions : s'.functions = s.functions.map fun declared => (declared.1, declared.2.renumber f)
  services : s'.services = s.services

namespace Line

variable {f : UInt32 → UInt32} {g k : Line → Line}

theorem updateLast_renumber (hg : ∀ l : Line, k (l.renumber f) = (g l).renumber f) (ls : List Line) :
    updateLast k (ls.map (·.renumber f)) = (updateLast g ls).map (·.renumber f) := by
  rcases List.eq_nil_or_concat ls with rfl | ⟨init, l, rfl⟩
  · rfl
  · rw [List.concat_eq_append, List.map_append, List.map_singleton, updateLast_concat, updateLast_concat, hg,
      List.map_append, List.map_singleton]

theorem updateLastWhere?_renumber {p p' : Line → Bool} (hp : ∀ l : Line, p' (l.renumber f) = p l)
    (hg : ∀ l : Line, k (l.renumber f) = (g l).renumber f) (ls : List Line) :
    updateLastWhere? p' k (ls.map (·.renumber f)) = (updateLastWhere? p g ls).map (·.map (·.renumber f)) := by
  induction ls with
  | nil => rfl
  | cons l ls ih =>
    rw [List.map_cons, updateLastWhere?, updateLastWhere?, ih]
    cases updateLastWhere? p g ls with
    | some updated => rfl
    | none =>
      rw [hp]
      cases p l with
      | true => simp [hg]
      | false => rfl

end Line

namespace Scopes

variable {f : UInt32 → UInt32} {a b : Scopes}

theorem lookup?_mirrors (h : List.Forall₂ (Frame.Mirrors f) a.frames b.frames) {name : String}
    (hname : Text.isOperandName name = false) : b.lookup? name = a.lookup? name := by
  unfold lookup?
  generalize a.frames = fs, b.frames = fs' at h
  induction h with
  | nil => rfl
  | cons hf _ ih => rw [List.findSome?_cons, List.findSome?_cons, hf.lookup? name hname, ih]

theorem define_mirrors (h : List.Forall₂ (Frame.Mirrors f) a.frames b.frames) (name : String) (binding : Binding) :
    List.Forall₂ (Frame.Mirrors f) (a.define name binding).frames
      (b.define (Text.renumberName f name) binding).frames := by
  obtain ⟨hinner, houter⟩ := List.forall₂_cons.mp h
  refine .cons ⟨hinner.owner, fun other hother => ?_⟩ houter
  have hlookup := hinner.lookup? other hother
  unfold Frame.lookup? at hlookup
  show List.lookup other ((Text.renumberName f name, binding) :: b.innermost.bindings) =
    List.lookup other ((name, binding) :: a.innermost.bindings)
  by_cases hname : Text.isOperandName name = true
  · -- Neither name is the one that is looked up.
    have hne : ∀ n, Text.isOperandName n = true → (other == n) = false := by
      rintro n hn
      refine beq_false_of_ne ?_
      rintro rfl
      exact absurd hn (Bool.eq_false_iff.mp hother)
    rw [List.lookup_cons, List.lookup_cons, hne name hname,
      hne _ ((Text.isOperandName_renumberName name).trans hname), hlookup]
  · rw [Text.renumberName_plain (Bool.eq_false_of_not_eq_true hname), List.lookup_cons, List.lookup_cons, hlookup]

theorem defineAll_mirrors (h : List.Forall₂ (Frame.Mirrors f) a.frames b.frames) (names : List String)
    (binding : Binding) :
    List.Forall₂ (Frame.Mirrors f) (a.defineAll names binding).frames (b.defineAll names binding).frames := by
  unfold defineAll
  induction names generalizing a b with
  | nil => exact h
  | cons name names ih =>
    obtain ⟨hinner, houter⟩ := List.forall₂_cons.mp h
    refine ih (.cons ⟨hinner.owner, fun other hother => ?_⟩ houter)
    have hlookup := hinner.lookup? other hother
    unfold Frame.lookup? at hlookup
    show List.lookup other ((name, binding) :: b.innermost.bindings) =
      List.lookup other ((name, binding) :: a.innermost.bindings)
    rw [List.lookup_cons, List.lookup_cons, hlookup]

theorem pop_mirrors (hf : Function.Injective f) (h : List.Forall₂ (Frame.Mirrors f) a.frames b.frames)
    (owner : Address) :
    List.Forall₂ (Frame.Mirrors f) (a.pop owner).frames (b.pop (owner.renumber f)).frames := by
  obtain ⟨hinner, houter⟩ := List.forall₂_cons.mp h
  have howner : b.innermost.owner = some (owner.renumber f) ↔ a.innermost.owner = some owner := by
    rw [hinner.owner]
    exact ⟨fun heq => Option.map_injective (Address.renumber_injective hf) heq, fun heq => by rw [heq]; rfl⟩
  unfold pop
  generalize a.outer = outer, b.outer = outer' at h houter
  cases houter with
  | nil => exact h
  | cons hframe houter =>
    simp only [howner]
    split
    · exact .cons hframe houter
    · exact h

end Scopes

namespace Store.Mirrors

variable {f : UInt32 → UInt32} {s s' : Store}

theorem empty : ({} : Store).Mirrors f {} :=
  ⟨rfl, .cons ⟨rfl, fun _ _ => rfl⟩ .nil, rfl, rfl, rfl⟩

/-- Lines that are changed alike keep the stores alike. -/
theorem with_lines (h : s.Mirrors f s') {ls ls' : List Line} (hl : ls' = ls.map (·.renumber f)) :
    ({ s with lines := ls } : Store).Mirrors f { s' with lines := ls' } :=
  ⟨hl, h.frames, h.modules, h.functions, h.services⟩

theorem isValue (h : s.Mirrors f s') {name : String} (hname : Text.isOperandName name = false) :
    s'.isValue name = s.isValue name := by
  rw [Store.isValue, Store.isValue, Scopes.lookup?_mirrors h.frames hname]

theorem isHandle (h : s.Mirrors f s') {name : String} (hname : Text.isOperandName name = false) :
    s'.isHandle name = s.isHandle name := by
  rw [Store.isHandle, Store.isHandle, Scopes.lookup?_mirrors h.frames hname]

theorem function? (h : s.Mirrors f s') (name : String) : s'.function? name = (s.function? name).map (·.renumber f) := by
  rw [Store.function?, Store.function?, h.functions]
  generalize s.functions = declared
  induction declared with
  | nil => rfl
  | cons d declared ih =>
    rw [List.map_cons, List.lookup_cons, List.lookup_cons, ih]
    split <;> rfl

theorem importModule (h : s.Mirrors f s') (name path : String) :
    (s.importModule name path).Mirrors f (s'.importModule name path) :=
  ⟨h.lines, h.frames, by rw [Store.importModule, Store.importModule, h.modules], h.functions, h.services⟩

theorem registerService (h : s.Mirrors f s') (name : String) :
    (s.registerService name).Mirrors f (s'.registerService name) := by
  unfold Store.registerService
  rw [h.services]
  split
  · exact h
  · exact ⟨h.lines, h.frames, h.modules, h.functions, rfl⟩

theorem nameLast (h : s.Mirrors f s') (path : List Segment) :
    (s.nameLast path).Mirrors f (s'.nameLast (path.map (·.renumber f))) := by
  have hlines := Line.updateLast_renumber (f := f) (g := fun l => { l with name := some path })
    (k := fun l => { l with name := some (path.map (·.renumber f)) }) (fun _ => rfl) s.lines
  rw [← h.lines] at hlines
  refine ⟨hlines, ?_, h.modules, h.functions, h.services⟩
  cases path with
  | nil => exact h.frames
  | cons segment path =>
    cases segment with
    | name root => exact Scopes.define_mirrors h.frames root .value
    | computed value => exact h.frames

theorem outputLast (h : s.Mirrors f s') (names : List String) :
    (s.outputLast names).Mirrors f (s'.outputLast names) := by
  have hlines := Line.updateLast_renumber (f := f) (g := fun l => { l with output := some names })
    (k := fun l => { l with output := some names }) (fun _ => rfl) s.lines
  rw [← h.lines] at hlines
  exact h.with_lines hlines

theorem declareFunction (h : s.Mirrors f s') (name : String) (a : Address) :
    (s'.declareFunction name (a.renumber f)).1 = (s.declareFunction name a).1.map (·.renumber f) ∧
      (s.declareFunction name a).2.Mirrors f (s'.declareFunction name (a.renumber f)).2 := by
  unfold Store.declareFunction
  rw [h.function?]
  cases s.function? name with
  | some previous => exact ⟨rfl, h⟩
  | none => exact ⟨rfl, h.lines, h.frames, h.modules, by simp [h.functions], h.services⟩

variable (hf : Function.Injective f)

include hf

theorem renumber_beq (a b : Address) : (a.renumber f == b.renumber f) = (a == b) := by
  rw [Bool.eq_iff_iff, beq_iff_eq, beq_iff_eq]
  exact (Address.renumber_injective hf).eq_iff

theorem line? (h : s.Mirrors f s') (a : Address) : s'.line? (a.renumber f) = (s.line? a).map (·.renumber f) := by
  rw [Store.line?, Store.line?, h.lines, List.find?_map]
  congr 2
  funext l
  exact renumber_beq hf l.address a

theorem fresh (h : s.Mirrors f s') (ln : UInt32) : s'.fresh (f ln) = (s.fresh ln).renumber f := by
  have hcount : s'.lines.countP (·.sourceLine == f ln) = s.lines.countP (·.sourceLine == ln) := by
    rw [h.lines, List.countP_map]
    congr 1
    funext l
    show (f l.sourceLine == f ln) = (l.sourceLine == ln)
    rw [Bool.eq_iff_iff, beq_iff_eq, beq_iff_eq, hf.eq_iff]
  rw [Store.fresh, Store.fresh, hcount, Address.renumber_ofSource]

theorem newLine (h : s.Mirrors f s') (m : Method) (ln : UInt32) (d : Draft) :
    s'.newLine m (f ln) (d.renumber f) = (s.newLine m ln d).renumber f := by
  rw [Store.newLine, h.fresh hf]
  rfl

theorem append (h : s.Mirrors f s') (m : Method) (ln : UInt32) (d : Draft) :
    (s.append m ln d).2.Mirrors f (s'.append m (f ln) (d.renumber f)).2 := by
  refine h.with_lines ?_
  rw [h.newLine hf, List.map_append, List.map_singleton, h.lines,
    Line.updateLast_renumber (g := fun l => { l with next := some (s.newLine m ln d).address }) fun _ => rfl]
  congr 1
  rw [List.map_map, List.map_map]
  refine List.map_congr_left fun l _ => ?_
  show (if d.parent.map (·.renumber f) = some (l.address.renumber f) then _ else _) = _
  have hparent : d.parent.map (·.renumber f) = some (l.address.renumber f) ↔ d.parent = some l.address :=
    (Option.map_injective (Address.renumber_injective hf)).eq_iff (a := d.parent) (b := some l.address)
  simp only [hparent, Function.comp_def]
  split
  · show Line.withEnter (l.renumber f) _ = (l.withEnter _).renumber f
    unfold Line.withEnter
    simp only [Line.renumber, Option.isNone_map]
    split <;> rfl
  · rfl

theorem addArgsToLast (h : s.Mirrors f s') (m : Method) (more : List Value) :
    (s'.addArgsToLast m (more.map (·.renumber f))).1 = (s.addArgsToLast m more).1 ∧
      (s.addArgsToLast m more).2.Mirrors f (s'.addArgsToLast m (more.map (·.renumber f))).2 := by
  have hlast : s'.last? = s.last?.map (·.renumber f) := by
    rw [Store.last?, Store.last?, h.lines, List.getLast?_map, Option.map_map, Option.map_map]
    rfl
  unfold Store.addArgsToLast
  rw [hlast]
  cases s.last? with
  | none => exact ⟨rfl, h⟩
  | some a =>
    simp only [Option.map_some, Store.addArgs, h.line? hf]
    cases s.line? a with
    | none => exact ⟨rfl, h⟩
    | some line =>
      have hmethod : (line.renumber f).method = line.method := rfl
      simp only [Option.map_some, hmethod]
      split
      · refine ⟨rfl, h.with_lines ?_⟩
        rw [h.lines, List.map_map, List.map_map]
        refine List.map_congr_left fun l _ => ?_
        show (if l.address.renumber f = a.renumber f then _ else _) = _
        simp only [(Address.renumber_injective hf).eq_iff, Function.comp_def]
        split
        · simp only [Line.addArgs, Line.renumber, Option.map_some, List.map_append]
          cases l.args <;> rfl
        · rfl
      · exact ⟨rfl, h⟩

theorem linkExit (h : s.Mirrors f s') (a : Address) : (s.linkExit a).Mirrors f (s'.linkExit (a.renumber f)) := by
  have haddress : ((fun l : Line => l.address != a.renumber f) ∘ fun l => l.renumber f) =
      fun l : Line => l.address != a := by
    funext l
    exact congrArg Bool.not (renumber_beq hf l.address a)
  unfold Store.linkExit
  rw [h.lines, List.takeWhile_map, List.dropWhile_map, haddress]
  cases s.lines.dropWhile (·.address != a) with
  | nil => exact h
  | cons target after =>
    refine h.with_lines ?_
    rw [Line.updateLastWhere?_renumber (g := fun l => { l with exit := some a })
      (p := fun l => l.parent == target.parent && l.method.isBranch) (fun l => ?_) fun _ => rfl]
    · rw [List.map_append, List.map_cons]
      congr 1
      cases Line.updateLastWhere? _ _ _ <;> rfl
    · show ((l.parent.map (·.renumber f) == target.parent.map (·.renumber f)) && l.method.isBranch) = _
      congr 1
      rw [Bool.eq_iff_iff, beq_iff_eq, beq_iff_eq]
      exact (Option.map_injective (Address.renumber_injective hf)).eq_iff

theorem copyLine (h : s.Mirrors f s') (a : Address) (ln : UInt32) (p : Option Address) :
    (s.copyLine a ln p).2.Mirrors f (s'.copyLine (a.renumber f) (f ln) (p.map (·.renumber f))).2 := by
  unfold Store.copyLine
  rw [h.line? hf]
  cases s.line? a with
  | none => exact h
  | some line =>
    have happend := h.append hf line.method ln (line.draftUnder p)
    refine happend.with_lines ?_
    show Line.updateLast _ (s'.append line.method (f ln) ((line.draftUnder p).renumber f)).2.lines = _
    rw [happend.lines]
    exact Line.updateLast_renumber (g := fun l => { l with name := line.name }) (fun _ => rfl) _

theorem openScope (h : s.Mirrors f s') (header : Address) (output : List String) :
    (s.openScope header output).Mirrors f (s'.openScope (header.renumber f) output) := by
  have hbinding : s'.outputBinding (header.renumber f) = s.outputBinding header := by
    rw [Store.outputBinding, Store.outputBinding, h.line? hf, Option.any_map]
    rfl
  have hpush : List.Forall₂ (Frame.Mirrors f) (s.scopes.push header).frames
      (s'.scopes.push (header.renumber f)).frames :=
    .cons ⟨rfl, fun _ _ => rfl⟩ h.frames
  refine ⟨h.lines, ?_, h.modules, h.functions, h.services⟩
  rw [Store.openScope, Store.openScope, hbinding]
  exact Scopes.defineAll_mirrors hpush output _

theorem closeScope (h : s.Mirrors f s') (header : Address) :
    (s.closeScope header).Mirrors f (s'.closeScope (header.renumber f)) :=
  ⟨h.lines, Scopes.pop_mirrors hf h.frames header, h.modules, h.functions, h.services⟩

/-- A service call that the first store takes, the second takes too. -/
theorem invoke (h : s.Mirrors f s') {m : Method} {ln : UInt32} {r : Request} {p : Option Address} {a : Address}
    {u : Store} (hname : Text.isOperandName r.name = false) (hargs : ∀ v ∈ r.args, v.Plain)
    (hu : s.invoke m ln r p = .ok (a, u)) :
    ∃ u', s'.invoke m (f ln) r (p.map (·.renumber f)) = .ok (a.renumber f, u') ∧ u.Mirrors f u' := by
  unfold Store.invoke at hu ⊢
  split at hu
  · cases hu
  · rename_i hdot
    rw [if_neg hdot]
    obtain ⟨rfl, rfl⟩ := Prod.mk.inj (Except.ok.inj hu)
    have hregistered : (if s.isHandle r.name = true then s else s.registerService r.name).Mirrors f
        (if s'.isHandle r.name = true then s' else s'.registerService r.name) := by
      rw [h.isHandle hname]
      split
      · exact h
      · exact h.registerService r.name
    have happend := hregistered.append hf m ln
      { args := some r.args, output := r.output, parent := p, service := some r.name, command := r.command }
    simp only [Draft.renumber, Option.map_some, Value.renumber_all hargs] at happend
    refine ⟨_, ?_, happend⟩
    exact congrArg Except.ok (Prod.ext (hregistered.fresh hf ln) rfl)

end Store.Mirrors

/-! ### Actions that mirror each other -/

/-- The addresses of the same line. -/
def Address.Renumbers (f : UInt32 → UInt32) (a b : Address) : Prop :=
  b = a.renumber f

namespace LowerM

variable {f : UInt32 → UInt32} {α β γ δ : Type} {R : α → β → Prop} {S : γ → δ → Prop}

/-- From stores that mirror each other, the second action ends with an answer if the first does, and the answers
    are related and the stores mirror each other again. -/
def Mirrors (f : UInt32 → UInt32) (R : α → β → Prop) (m : LowerM Store α) (m' : LowerM Store β) : Prop :=
  ∀ s s', s.Mirrors f s' → ∀ a u, m s = .ok a u → ∃ b u', m' s' = .ok b u' ∧ R a b ∧ u.Mirrors f u'

theorem Mirrors.bind {m : LowerM Store α} {m' : LowerM Store β} {k : α → LowerM Store γ} {k' : β → LowerM Store δ}
    (h : m.Mirrors f R m') (hk : ∀ a b, R a b → (k a).Mirrors f S (k' b)) : (m >>= k).Mirrors f S (m' >>= k') := by
  intro s s' hs c u hc
  obtain ⟨a, t, ha, hrest⟩ := bind_eq_ok.mp hc
  obtain ⟨b, t', hb, hr, ht⟩ := h s s' hs a t ha
  obtain ⟨d, u', hd, hcd, hu⟩ := hk a b hr t t' ht c u hrest
  exact ⟨d, u', bind_eq_ok.mpr ⟨b, t', hb, hd⟩, hcd, hu⟩

theorem mirrors_pure {a : α} {b : β} (h : R a b) : (pure a : LowerM Store α).Mirrors f R (pure b) := by
  rintro s s' hs _ _ ⟨⟩
  exact ⟨b, s', rfl, h, hs⟩

theorem mirrors_throw {d : Diagnostic} {m : LowerM Store β} : (throw d : LowerM Store α).Mirrors f R m := by
  rintro s s' hs _ _ ⟨⟩

theorem mirrors_get : (get : LowerM Store Store).Mirrors f (Store.Mirrors f) get := by
  rintro s s' hs _ _ ⟨⟩
  exact ⟨s', s', rfl, hs, hs⟩

theorem mirrors_modify {g g' : Store → Store} (h : ∀ s s', s.Mirrors f s' → (g s).Mirrors f (g' s')) :
    (modify g : LowerM Store Unit).Mirrors f Eq (modify g') := by
  rintro s s' hs _ _ ⟨⟩
  exact ⟨(), g' s', rfl, rfl, h s s' hs⟩

theorem mirrors_modifyGet {g : Store → α × Store} {g' : Store → β × Store}
    (h : ∀ s s', s.Mirrors f s' → R (g s).1 (g' s').1 ∧ (g s).2.Mirrors f (g' s').2) :
    (modifyGet g : LowerM Store α).Mirrors f R (modifyGet g') := by
  rintro s s' hs _ _ ⟨⟩
  exact ⟨(g' s').1, (g' s').2, rfl, h s s' hs⟩

theorem mirrors_read {x : Except Malformed α} {y : Except Malformed β} (h : Agrees R x y) :
    (liftM x : LowerM Store α).Mirrors f R (liftM y) := by
  intro s s' hs a u ha
  obtain ⟨hx, rfl⟩ := read_eq_ok.mp ha
  obtain ⟨b, rfl, hr⟩ := h a hx
  exact ⟨b, s', rfl, hr, hs⟩

theorem mirrors_lookUp {x : Except Missing α} {y : Except Missing β} (h : Agrees R x y) :
    (liftM x : LowerM Store α).Mirrors f R (liftM y) := by
  intro s s' hs a u ha
  obtain ⟨hx, rfl⟩ := lookUp_eq_ok.mp ha
  obtain ⟨b, rfl, hr⟩ := h a hx
  exact ⟨b, s', rfl, hr, hs⟩

theorem mirrors_check {x : Except Diagnostic α} {y : Except Diagnostic β} (h : Agrees R x y) :
    (liftM x : LowerM Store α).Mirrors f R (liftM y) := by
  intro s s' hs a u ha
  cases x with
  | error d => cases ha
  | ok a' =>
    obtain ⟨b, rfl, hr⟩ := h a' rfl
    obtain ⟨rfl, rfl⟩ := pure_eq_ok.mp ha
    exact ⟨b, s', rfl, hr, hs⟩

theorem agrees_ensure {t t' : Tree} {condition condition' : Bool} (h : condition' = condition) (code : Code)
    (context context' : List (String × String)) :
    Agrees Eq (t.ensure condition code context) (t'.ensure condition' code context') := by
  intro u hu
  refine ⟨(), ?_, rfl⟩
  rw [Tree.ensure, h, Tree.ensure_ok hu]
  rfl

variable {t t' : Tree}

theorem mirrors_targetsValue (h : t.Alike (Token.Rewritten f) t') : (targetsValue t).Mirrors f Eq (targetsValue t') := by
  refine (mirrors_lookUp (h.child "path")).bind fun _ _ hpath => ?_
  refine (mirrors_lookUp (hpath.tokenAt 0)).bind fun _ _ hw => ?_
  refine mirrors_get.bind fun s s' hs => mirrors_pure ?_
  rw [hw.1.value]
  exact (hs.isValue hw.2.isOperandName).symm

theorem mirrors_lowerImport (h : t.Alike (Token.Rewritten f) t') : (lowerImport t).Mirrors f Eq (lowerImport t') := by
  refine (mirrors_lookUp (h.child "string")).bind fun _ _ hstring => ?_
  refine (mirrors_lookUp (hstring.tokenAt 0)).bind fun _ _ hpath => ?_
  refine (mirrors_read h.nameToken).bind fun _ _ hname => ?_
  rw [hpath.1.value, hname.1.value]
  exact mirrors_modify fun s s' hs => hs.importModule _ _

variable (hf : Function.Injective f) {p : Option Address}

include hf

theorem mirrors_append {ln ln' : UInt32} {d d' : Draft} (m : Method) (hln : ln' = f ln) (hd : d' = d.renumber f) :
    (append m ln d).Mirrors f (Address.Renumbers f) (append m ln' d') := by
  subst hln hd
  exact mirrors_modifyGet fun s s' hs => ⟨hs.fresh hf ln, hs.append hf m ln d⟩

/-- A line is appended whose operands are written in the script. -/
theorem mirrors_append_written {ln ln' : UInt32} {args : List Value} {output : Option (List String)}
    {service command function : Option String} (m : Method) (hln : ln' = f ln) (hargs : ∀ v ∈ args, v.Plain) :
    (append m ln { args := some args, output, parent := p, service, command, function }).Mirrors f (Address.Renumbers f)
      (append m ln' { args := some args, output, parent := p.map (·.renumber f), service, command, function }) := by
  refine mirrors_append hf m hln ?_
  simp only [Draft.renumber, Option.map_some, Value.renumber_all hargs]

theorem mirrors_continueLast (m : Method) (code : Code) {more : List Value} (hmore : ∀ v ∈ more, v.Plain) :
    (continueLast t m code more).Mirrors f Eq (continueLast t' m code more) := by
  have hadd : (modifyGet (Store.addArgsToLast · m more) : LowerM Store Bool).Mirrors f Eq
      (modifyGet (Store.addArgsToLast · m more)) := by
    refine mirrors_modifyGet fun s s' hs => ?_
    obtain ⟨hsame, hu⟩ := hs.addArgsToLast hf m more
    rw [Value.renumber_all hmore] at hsame hu
    exact ⟨hsame.symm, hu⟩
  exact hadd.bind fun _ _ hextended => mirrors_check (agrees_ensure hextended.symm code _ _)

theorem mirrors_execute {ln : UInt32} {r : Request} (hname : Text.Clean r.name) (hargs : ∀ v ∈ r.args, v.Plain) :
    (invoke t (·.execute ln r p)).Mirrors f (Address.Renumbers f)
      (invoke t' (·.execute (f ln) r (p.map (·.renumber f)))) := by
  intro s s' hs a u ha
  obtain ⟨u', hu', hm⟩ := hs.invoke hf hname.isOperandName hargs (invoke_eq_ok.mp ha)
  refine ⟨_, u', invoke_eq_ok.mpr ?_, rfl, hm⟩
  rw [Store.execute, hs.isHandle hname.isOperandName]
  exact hu'

theorem mirrors_listen {ln : UInt32} {r : Request} (hname : Text.Clean r.name) (hargs : ∀ v ∈ r.args, v.Plain) :
    (invoke t (·.listen ln r p)).Mirrors f (Address.Renumbers f)
      (invoke t' (·.listen (f ln) r (p.map (·.renumber f)))) := by
  intro s s' hs a u ha
  obtain ⟨u', hu', hm⟩ := hs.invoke hf hname.isOperandName hargs (invoke_eq_ok.mp ha)
  exact ⟨_, u', invoke_eq_ok.mpr hu', rfl, hm⟩

/-! ### Lines -/

theorem mirrors_valueCommand (h : t.Alike (Token.Rewritten f) t') (bare : Method) :
    (valueCommand t bare p).Mirrors f (Address.Renumbers f) (valueCommand t' bare (p.map (·.renumber f))) := by
  refine (mirrors_read (Tree.readValueCommand_agrees h bare)).bind fun x x' hx => ?_
  obtain ⟨rfl, hplain⟩ := hx
  refine (mirrors_lookUp h.line).bind fun _ _ hln => ?_
  rw [Tree.outputNames?_alike (h.fragmentChild? "output")]
  exact mirrors_append_written hf _ hln hplain

theorem mirrors_serviceLine (h : t.Alike (Token.Rewritten f) t') :
    (serviceLine t p).Mirrors f (Address.Renumbers f) (serviceLine t' (p.map (·.renumber f))) := by
  refine (mirrors_targetsValue h).bind fun targets _ htargets => ?_
  subst htargets
  cases targets with
  | true => exact mirrors_valueCommand hf h .set_
  | false =>
    refine (mirrors_lookUp h.line).bind fun _ _ hln => (mirrors_read (Tree.readRequest_agrees h)).bind fun r _ hr => ?_
    obtain ⟨rfl, hname, hargs⟩ := hr
    subst hln
    exact mirrors_execute hf hname hargs

theorem mirrors_mutationLine (h : t.Alike (Token.Rewritten f) t') :
    (mutationLine t p).Mirrors f (Address.Renumbers f) (mutationLine t' (p.map (·.renumber f))) := by
  refine (mirrors_read h.leadingTree).bind fun _ _ hsubject => ?_
  refine (mirrors_read (Tree.readChild_agrees (.tree hsubject))).bind fun value _ hvalue => ?_
  refine (mirrors_lookUp (h.child "mutation_fragment")).bind fun _ _ hfragment => ?_
  refine (mirrors_read (Tree.readMutation_agrees hfragment)).bind fun first _ hfirst => ?_
  refine (mirrors_read (Tree.readChain_agrees h)).bind fun chain _ hchain => ?_
  refine (mirrors_lookUp h.line).bind fun _ _ hln => ?_
  obtain ⟨rfl, hvalue⟩ := hvalue
  obtain ⟨rfl, hfirst⟩ := hfirst
  obtain ⟨rfl, hchain⟩ := hchain
  refine mirrors_append_written hf .mutation hln ?_
  exact List.forall_mem_cons.mpr ⟨hvalue, List.forall_mem_cons.mpr ⟨hfirst, hchain⟩⟩

theorem mirrors_callLine (h : t.Alike (Token.Rewritten f) t') :
    (callLine t p).Mirrors f (Address.Renumbers f) (callLine t' (p.map (·.renumber f))) := by
  refine (mirrors_lookUp (h.child "path")).bind fun path path' hpath => ?_
  have hinline : (path'.findAll "inline_expression").isEmpty = (path.findAll "inline_expression").isEmpty := by
    rw [Bool.eq_iff_iff, List.isEmpty_iff_length_eq_zero, List.isEmpty_iff_length_eq_zero,
      (hpath.findAll "inline_expression").length_eq]
  obtain ⟨hname, -⟩ := Tree.dottedText_alike hpath
  refine (mirrors_check (agrees_ensure hinline _ _ _)).bind fun _ _ _ => ?_
  rw [hname]
  refine (mirrors_check (agrees_ensure rfl _ _ _)).bind fun _ _ _ => mirrors_get.bind fun s s' hs => ?_
  have hknown : ((s'.function? path.dottedText).isSome || (Text.dotted path.dottedText).head?.any s'.importsModule) =
      ((s.function? path.dottedText).isSome || (Text.dotted path.dottedText).head?.any s.importsModule) := by
    have himports : s'.importsModule = s.importsModule := by
      funext name
      rw [Store.importsModule, Store.importsModule, hs.modules]
    rw [hs.function?, Option.isSome_map, himports]
  refine (mirrors_check (agrees_ensure hknown _ _ _)).bind fun _ _ _ => ?_
  refine (mirrors_read (Tree.readArguments_agrees h)).bind fun arguments _ harguments => ?_
  refine (mirrors_lookUp h.line).bind fun _ _ hln => ?_
  subst harguments
  exact mirrors_append_written hf .call hln (Value.plain_arguments arguments)

theorem mirrors_operandLine (h : t.Alike (Token.Rewritten f) t') :
    (operandLine t p).Mirrors f (Address.Renumbers f) (operandLine t' (p.map (·.renumber f))) := by
  unfold operandLine
  rw [h.tag]
  cases OperandKind.ofTag? t.tag with
  | none => exact mirrors_throw
  | some kind =>
    cases kind with
    | expression =>
      refine (mirrors_read (Tree.readConjuncts_agrees h)).bind fun args _ hargs => ?_
      refine (mirrors_lookUp h.line).bind fun _ _ hln => ?_
      obtain ⟨rfl, hargs⟩ := hargs
      rw [Tree.isLoneOperand_alike h]
      exact mirrors_append_written hf _ hln hargs
    | value =>
      refine (mirrors_read (Tree.readChild_agrees (.tree h))).bind fun value _ hvalue => ?_
      refine (mirrors_lookUp h.line).bind fun _ _ hln => ?_
      obtain ⟨rfl, hvalue⟩ := hvalue
      exact mirrors_append_written hf _ hln (List.forall_mem_singleton.mpr hvalue)
    | service => exact mirrors_serviceLine hf h
    | mutation => exact mirrors_mutationLine hf h
    | call => exact mirrors_callLine hf h

end LowerM

/-- The operands of the same header. -/
structure Operand.Renumbers (f : UInt32 → UInt32) (o o' : Operand) : Prop where
  args : o'.args = o.args.map (·.renumber f)
  line : o'.line = o.line.map (·.renumber f)

/-- The header of an operand. -/
theorem Operand.Renumbers.draft {f : UInt32 → UInt32} {o o' : Operand} (h : o.Renumbers f o') (p : Option Address) :
    { args := some o'.args, parent := p.map (·.renumber f) } =
      ({ args := some o.args, parent := p } : Draft).renumber f := by
  rw [h.args]
  rfl

namespace LowerM

variable {f : UInt32 → UInt32} (hf : Function.Injective f) {p : Option Address} {t t' : Tree}

include hf

theorem mirrors_computedOperand (h : t.Alike (Token.Rewritten f) t') :
    (computedOperand t p).Mirrors f (Operand.Renumbers f) (computedOperand t' (p.map (·.renumber f))) := by
  refine (mirrors_operandLine hf h).bind fun a a' ha => ?_
  obtain rfl : a' = a.renumber f := ha
  have hname : [Segment.name a.operandName].map (·.renumber f) = [.name (a.renumber f).operandName] := by
    simp only [List.map_cons, List.map_nil, Segment.renumber, Text.renumberName_operandName]
  refine Mirrors.bind (mirrors_modify fun s s' hs => ?_) fun _ _ _ => mirrors_pure ⟨?_, rfl⟩
  · exact hname ▸ hs.nameLast [.name a.operandName]
  · simp only [List.map_cons, List.map_nil, Value.renumber_operand]

theorem mirrors_headerOperand (h : t.Alike (Token.Rewritten f) t') :
    (headerOperand t p).Mirrors f (Operand.Renumbers f) (headerOperand t' (p.map (·.renumber f))) := by
  refine (mirrors_read h.innerOperand).bind fun operand operand' hoperand => ?_
  rw [hoperand.tag]
  have hcomputed := mirrors_computedOperand (p := p) hf hoperand
  cases OperandKind.ofTag? operand.tag with
  | none => exact hcomputed
  | some kind =>
    cases kind with
    | expression =>
      refine (mirrors_read (Tree.readConjuncts_agrees hoperand)).bind fun args _ hargs => mirrors_pure ⟨?_, rfl⟩
      obtain ⟨rfl, hargs⟩ := hargs
      exact (Value.renumber_all hargs).symm
    | value =>
      refine (mirrors_read (Tree.readChild_agrees (.tree hoperand))).bind fun value _ hvalue => mirrors_pure ⟨?_, rfl⟩
      obtain ⟨rfl, hvalue⟩ := hvalue
      exact (Value.renumber_all (List.forall_mem_singleton.mpr hvalue)).symm
    | _ => exact hcomputed

/-! ### Statements -/

theorem mirrors_lowerAssignment (h : t.Alike (Token.Rewritten f) t') :
    (lowerAssignment t p).Mirrors f Eq (lowerAssignment t' (p.map (·.renumber f))) := by
  refine (mirrors_lookUp (h.child "path")).bind fun _ _ htarget => ?_
  refine (mirrors_check (Tree.checkNames_agrees htarget)).bind fun _ _ _ => ?_
  refine (mirrors_read (Tree.segmentsOf_agrees htarget.children)).bind fun _ path hpath => ?_
  refine (mirrors_lookUp (h.child "assignment_fragment")).bind fun _ _ hfragment => ?_
  refine (mirrors_read hfragment.innerOperand).bind fun _ _ hoperand => ?_
  refine (mirrors_operandLine hf hoperand).bind fun _ _ _ => ?_
  obtain ⟨rfl, hplain⟩ := hpath
  refine mirrors_modify fun s s' hs => ?_
  have hname := hs.nameLast path
  rwa [Segment.renumber_all hplain] at hname

theorem mirrors_lowerExpression (h : t.Alike (Token.Rewritten f) t') :
    (lowerExpression t p).Mirrors f Eq (lowerExpression t' (p.map (·.renumber f))) := by
  refine (mirrors_lookUp (h.child "expression")).bind fun _ _ hexpression => ?_
  refine (mirrors_read (Tree.readConjuncts_agrees hexpression)).bind fun args _ hargs => ?_
  refine (mirrors_lookUp h.line).bind fun _ _ hln => ?_
  obtain ⟨rfl, hargs⟩ := hargs
  exact (mirrors_append_written hf _ hln hargs).bind fun _ _ _ => mirrors_pure rfl

theorem mirrors_lowerReturn (h : t.Alike (Token.Rewritten f) t') :
    (lowerReturn t p).Mirrors f Eq (lowerReturn t' (p.map (·.renumber f))) := by
  unfold lowerReturn
  refine (mirrors_check (agrees_ensure Option.isSome_map _ _ _)).bind fun _ _ _ => ?_
  have hbase := h.child? "base_expression"
  generalize t.child? "base_expression" = base, t'.child? "base_expression" = base' at hbase
  cases hbase with
  | none =>
    refine (mirrors_lookUp h.line).bind fun _ _ hln => ?_
    exact (mirrors_append hf _ hln rfl).bind fun _ _ _ => mirrors_pure rfl
  | some hbase =>
    refine (mirrors_headerOperand hf hbase).bind fun o o' ho => (mirrors_lookUp h.line).bind fun _ _ hln => ?_
    exact (mirrors_append hf _ hln (ho.draft p)).bind fun _ _ _ => mirrors_pure rfl

theorem mirrors_lowerBreak (h : t.Alike (Token.Rewritten f) t') :
    (lowerBreak t p).Mirrors f Eq (lowerBreak t' (p.map (·.renumber f))) := by
  refine (mirrors_check (agrees_ensure Option.isSome_map _ _ _)).bind fun _ _ _ => ?_
  refine (mirrors_lookUp h.line).bind fun _ _ hln => ?_
  exact (mirrors_append hf _ hln rfl).bind fun _ _ _ => mirrors_pure rfl

theorem mirrors_lowerThrow (h : t.Alike (Token.Rewritten f) t') :
    (lowerThrow t p).Mirrors f Eq (lowerThrow t' (p.map (·.renumber f))) := by
  refine (mirrors_read (Tree.readThrown_agrees h)).bind fun args _ hargs => ?_
  refine (mirrors_lookUp h.line).bind fun _ _ hln => ?_
  obtain ⟨rfl, hargs⟩ := hargs
  exact (mirrors_append_written hf _ hln hargs).bind fun _ _ _ => mirrors_pure rfl

theorem mirrors_continueMutation (h : t.Alike (Token.Rewritten f) t') :
    (continueMutation t).Mirrors f Eq (continueMutation t') := by
  refine (mirrors_read (Tree.readChain_agrees h)).bind fun more _ hmore => ?_
  obtain ⟨rfl, hmore⟩ := hmore
  exact mirrors_continueLast hf _ _ hmore

theorem mirrors_continueArguments (h : t.Alike (Token.Rewritten f) t') :
    (continueArguments t).Mirrors f Eq (continueArguments t') := by
  refine (mirrors_read (Tree.readArguments_agrees h)).bind fun arguments _ harguments => ?_
  subst harguments
  exact mirrors_continueLast hf _ _ (Value.plain_arguments arguments)

end LowerM

/-! ### Blocks -/

/-- Parts of the same statements, with lowerings that mirror each other. -/
def PartsMirror (f : UInt32 → UInt32) : List (Part Store) → List (Part Store) → Prop :=
  List.Forall₂ fun part part' => part.tree.Alike (Token.Rewritten f) part'.tree ∧
    ∀ p, LowerM.Mirrors f Eq (part.lower p) (part'.lower (p.map (·.renumber f)))

section Parts

open LowerM

variable {f : UInt32 → UInt32} {parts parts' : List (Part Store)} {p : Option Address}
  (hparts : PartsMirror f parts parts')

include hparts

theorem mirrors_lowerAll : (Part.lowerAll parts p).Mirrors f Eq (Part.lowerAll parts' (p.map (·.renumber f))) := by
  induction hparts with
  | nil => exact mirrors_pure rfl
  | cons hpart _ ih => exact (hpart.2 p).bind fun _ _ _ => ih

theorem mirrors_lowerTagged (tag : String) :
    (Part.lowerTagged parts tag p).Mirrors f Eq (Part.lowerTagged parts' tag (p.map (·.renumber f))) :=
  mirrors_lowerAll (List.rel_filter (fun _ _ hpart => by simp only [hpart.1.tag]) hparts)

theorem PartsMirror.find? (tag : String) :
    Option.Rel (fun part part' => ∀ p, LowerM.Mirrors f Eq (part.lower p) (part'.lower (p.map (·.renumber f))))
      (parts.find? (·.tree.tag == tag)) (parts'.find? (·.tree.tag == tag)) := by
  have hfound := forall₂_find? (p := (·.tree.tag == tag)) (q := (·.tree.tag == tag)) hparts fun _ _ hpart => by
    rw [hpart.1.tag]
  generalize parts.find? (·.tree.tag == tag) = found, parts'.find? (·.tree.tag == tag) = found' at hfound
  cases hfound with
  | none => exact .none
  | some hpart => exact .some hpart.2

theorem mirrors_lowerFirst (tag : String) :
    (Part.lowerFirst parts tag p).Mirrors f Eq (Part.lowerFirst parts' tag (p.map (·.renumber f))) := by
  have hfound := PartsMirror.find? hparts tag
  unfold Part.lowerFirst
  generalize parts.find? (·.tree.tag == tag) = found, parts'.find? (·.tree.tag == tag) = found' at hfound
  cases hfound with
  | none => exact mirrors_pure rfl
  | some hpart => exact hpart p

variable (hf : Function.Injective f)

include hf

theorem mirrors_lowerBody {header header' : Address} (hheader : header.Renumbers f header')
    (output : Option (List String)) :
    (Part.lowerBody parts header output).Mirrors f Eq (Part.lowerBody parts' header' output) := by
  obtain rfl : header' = header.renumber f := hheader
  have hfound := PartsMirror.find? hparts "nested_block"
  unfold Part.lowerBody
  generalize parts.find? (·.tree.tag == "nested_block") = found,
    parts'.find? (·.tree.tag == "nested_block") = found' at hfound
  cases hfound with
  | none => exact mirrors_pure rfl
  | some hbody =>
    refine Mirrors.bind (mirrors_modify fun s s' hs => hs.openScope hf header _) fun _ _ _ => ?_
    exact (hbody (some header)).bind fun _ _ _ => mirrors_modify fun s s' hs => hs.closeScope hf header

variable {t t' : Tree} (h : t.Alike (Token.Rewritten f) t')

include h

theorem mirrors_lowerService :
    (lowerService t parts p).Mirrors f Eq (lowerService t' parts' (p.map (·.renumber f))) := by
  have hrest : ∀ service service' : Tree, service.Alike (Token.Rewritten f) service' → LowerM.Mirrors f Eq
      (do
        if ← targetsValue service then do
          let header ← valueCommand service .expression p
          let output := ((← get).line? header).bind (·.output)
          Part.lowerBody parts header output
        else do
          let call ← service.readRequest
          let line ← service.line
          let header ← invoke service (·.execute line call p)
          Part.lowerBody parts header call.output)
      (do
        if ← targetsValue service' then do
          let header ← valueCommand service' .expression (p.map (·.renumber f))
          let output := ((← get).line? header).bind (·.output)
          Part.lowerBody parts' header output
        else do
          let call ← service'.readRequest
          let line ← service'.line
          let header ← invoke service' (·.execute line call (p.map (·.renumber f)))
          Part.lowerBody parts' header call.output) := by
    intro service service' hservice
    refine (mirrors_targetsValue hservice).bind fun targets _ htargets => ?_
    subst htargets
    cases targets with
    | true =>
      refine (mirrors_valueCommand hf hservice .expression).bind fun header header' hheader => ?_
      refine mirrors_get.bind fun s s' hs => ?_
      have houtput : (s'.line? header').bind (·.output) = (s.line? header).bind (·.output) := by
        rw [show header' = header.renumber f from hheader, hs.line? hf, Option.bind_map]
        rfl
      rw [houtput]
      exact mirrors_lowerBody hparts hf hheader _
    | false =>
      refine (mirrors_read (Tree.readRequest_agrees hservice)).bind fun call _ hcall => ?_
      obtain ⟨rfl, hname, hargs⟩ := hcall
      refine (mirrors_lookUp hservice.line).bind fun ln ln' hln => ?_
      subst hln
      exact (mirrors_execute hf hname hargs).bind fun _ _ hheader => mirrors_lowerBody hparts hf hheader _
  unfold lowerService
  rw [h.tag]
  split
  · exact hrest t t' h
  · exact (mirrors_lookUp (h.child "service")).bind hrest

theorem mirrors_lowerMutation :
    (lowerMutation t parts p).Mirrors f Eq (lowerMutation t' parts' (p.map (·.renumber f))) := by
  have hrest : ∀ mutated mutated' : Tree, mutated.Alike (Token.Rewritten f) mutated' → LowerM.Mirrors f Eq
      (do
        let header ← mutationLine mutated p
        Part.lowerBody parts header none)
      (do
        let header ← mutationLine mutated' (p.map (·.renumber f))
        Part.lowerBody parts' header none) := fun mutated mutated' hmutated =>
    (mirrors_mutationLine hf hmutated).bind fun _ _ hheader => mirrors_lowerBody hparts hf hheader none
  unfold lowerMutation
  rw [h.tag]
  split
  · exact hrest t t' h
  · exact (mirrors_lookUp (h.child "mutation")).bind hrest

theorem mirrors_lowerWhen : (lowerWhen t parts p).Mirrors f Eq (lowerWhen t' parts' (p.map (·.renumber f))) := by
  unfold lowerWhen
  refine (mirrors_lookUp h.line).bind fun ln ln' hln => ?_
  subst hln
  have hservice := h.child? "service"
  generalize t.child? "service" = service, t'.child? "service" = service' at hservice
  cases hservice with
  | some hservice =>
    refine (mirrors_read (Tree.readRequest_agrees hservice)).bind fun call _ hcall => ?_
    obtain ⟨rfl, hname, hargs⟩ := hcall
    exact (mirrors_listen hf hname hargs).bind fun _ _ hheader => mirrors_lowerBody hparts hf hheader _
  | none =>
    refine (mirrors_lookUp (h.child "path")).bind fun _ _ hpath => ?_
    refine (mirrors_read (Tree.readPath_agrees hpath)).bind fun _ _ hhandle => ?_
    obtain ⟨rfl, hhandle⟩ := hhandle
    rw [Tree.outputNames?_alike (h.child? "output")]
    refine (mirrors_append_written hf .when rfl (List.forall_mem_singleton.mpr hhandle)).bind fun _ _ hheader => ?_
    exact mirrors_lowerBody hparts hf hheader _

theorem mirrors_lowerIf : (lowerIf t parts p).Mirrors f Eq (lowerIf t' parts' (p.map (·.renumber f))) := by
  refine (mirrors_lookUp (h.child "if_statement")).bind fun _ _ hstatement => ?_
  refine (mirrors_headerOperand hf hstatement).bind fun o o' ho => ?_
  refine (mirrors_lookUp hstatement.line).bind fun _ _ hln => ?_
  refine (mirrors_append hf .if_ hln (ho.draft p)).bind fun _ _ hheader => ?_
  refine (mirrors_lowerBody hparts hf hheader none).bind fun _ _ _ => ?_
  exact (mirrors_lowerTagged hparts _).bind fun _ _ _ => mirrors_lowerFirst hparts _

theorem mirrors_lowerElseIf : (lowerElseIf t parts p).Mirrors f Eq (lowerElseIf t' parts' (p.map (·.renumber f))) := by
  refine (mirrors_lookUp (h.child "elseif_statement")).bind fun _ _ hstatement => ?_
  refine (mirrors_headerOperand hf hstatement).bind fun o o' ho => ?_
  refine (mirrors_lookUp hstatement.line).bind fun _ _ hln => ?_
  refine (mirrors_append hf .elif hln (ho.draft p)).bind fun header header' hheader => ?_
  have htarget : o'.line.getD header' = (o.line.getD header).renumber f := by
    rw [ho.line]
    cases o.line with
    | none => exact hheader
    | some computed => rfl
  rw [htarget]
  refine Mirrors.bind (mirrors_modify fun s s' hs => hs.linkExit hf _) fun _ _ _ => ?_
  exact mirrors_lowerBody hparts hf hheader none

theorem mirrors_lowerLastBranch (m : Method) :
    (lowerLastBranch m t parts p).Mirrors f Eq (lowerLastBranch m t' parts' (p.map (·.renumber f))) := by
  refine (mirrors_lookUp h.line).bind fun _ _ hln => (mirrors_append hf m hln rfl).bind fun header header' hheader => ?_
  obtain rfl : header' = header.renumber f := hheader
  refine Mirrors.bind (mirrors_modify fun s s' hs => hs.linkExit hf header) fun _ _ _ => ?_
  exact mirrors_lowerBody hparts hf rfl none

theorem mirrors_lowerForeach : (lowerForeach t parts p).Mirrors f Eq (lowerForeach t' parts' (p.map (·.renumber f))) := by
  unfold lowerForeach
  refine (mirrors_lookUp (h.child "foreach_statement")).bind fun statement statement' hstatement => ?_
  have hsubject : Option.Rel (Tree.Alike (Token.Rewritten f))
      (statement.subtrees.find? (["entity", "values", "path"].contains ·.tag))
      (statement'.subtrees.find? (["entity", "values", "path"].contains ·.tag)) :=
    forall₂_find? hstatement.subtrees fun _ _ hc => by rw [hc.tag]
  rw [Tree.outputNames?_alike (hstatement.child? "output")]
  generalize statement.subtrees.find? _ = subject, statement'.subtrees.find? _ = subject' at hsubject
  cases hsubject with
  | none => exact Mirrors.bind (R := fun _ _ => False) mirrors_throw fun _ _ hnone => hnone.elim
  | some hsubject =>
    refine Mirrors.bind (mirrors_pure hsubject) fun _ _ hsubject => ?_
    refine (mirrors_read (Tree.readChild_agrees (.tree hsubject))).bind fun _ _ hvalue => ?_
    refine (mirrors_lookUp hstatement.line).bind fun _ _ hln => ?_
    obtain ⟨rfl, hvalue⟩ := hvalue
    refine (mirrors_append_written hf .for_ hln (List.forall_mem_singleton.mpr hvalue)).bind fun _ _ hheader => ?_
    exact mirrors_lowerBody hparts hf hheader _

theorem mirrors_lowerWhile : (lowerWhile t parts p).Mirrors f Eq (lowerWhile t' parts' (p.map (·.renumber f))) := by
  refine (mirrors_lookUp (h.child "while_statement")).bind fun _ _ hstatement => ?_
  refine (mirrors_lookUp hstatement.line).bind fun ln ln' hln => ?_
  subst hln
  refine (mirrors_headerOperand hf hstatement).bind fun o o' ho => ?_
  refine (mirrors_append hf .while_ rfl (ho.draft p)).bind fun header header' hheader => ?_
  refine (mirrors_lowerBody hparts hf hheader none).bind fun _ _ _ => ?_
  obtain rfl : header' = header.renumber f := hheader
  rw [ho.line]
  cases o.line with
  | none => exact mirrors_pure rfl
  | some computed =>
    have hcopy : (modifyGet (Store.copyLine · computed ln (some header)) : LowerM Store (Option Address)).Mirrors f
        (fun _ _ => True) (modifyGet (Store.copyLine · (computed.renumber f) (f ln) (some (header.renumber f)))) :=
      mirrors_modifyGet fun s s' hs => ⟨trivial, hs.copyLine hf computed ln (some header)⟩
    exact hcopy.bind fun _ _ _ => mirrors_pure rfl

theorem mirrors_lowerTry : (lowerTry t parts p).Mirrors f Eq (lowerTry t' parts' (p.map (·.renumber f))) := by
  refine (mirrors_lookUp h.line).bind fun _ _ hln => (mirrors_append hf .try_ hln rfl).bind fun _ _ hheader => ?_
  refine (mirrors_lowerBody hparts hf hheader none).bind fun _ _ _ => ?_
  exact (mirrors_lowerFirst hparts _).bind fun _ _ _ => mirrors_lowerFirst hparts _

theorem mirrors_lowerCatch : (lowerCatch t parts p).Mirrors f Eq (lowerCatch t' parts' (p.map (·.renumber f))) := by
  refine (mirrors_lookUp (h.child "catch_statement")).bind fun statement statement' hstatement => ?_
  have houtput : (statement'.tokenOf? "NAME").map (fun name => [name.value]) =
      (statement.tokenOf? "NAME").map fun name => [name.value] := by
    have hname := hstatement.tokenOf? "NAME"
    generalize statement.tokenOf? "NAME" = name, statement'.tokenOf? "NAME" = name' at hname
    cases hname with
    | none => rfl
    | some hw => rw [Option.map_some, Option.map_some, hw.1.value]
  rw [houtput]
  refine (mirrors_lookUp hstatement.line).bind fun _ _ hln => ?_
  refine (mirrors_append hf .catch_ hln rfl).bind fun header header' hheader => ?_
  obtain rfl : header' = header.renumber f := hheader
  refine Mirrors.bind (mirrors_modify fun s s' hs => hs.linkExit hf header) fun _ _ _ => ?_
  exact mirrors_lowerBody hparts hf rfl _

theorem mirrors_lowerFunction :
    (lowerFunction t parts p).Mirrors f Eq (lowerFunction t' parts' (p.map (·.renumber f))) := by
  unfold lowerFunction
  refine (mirrors_lookUp (h.child "function_statement")).bind fun statement statement' hstatement => ?_
  refine (mirrors_read hstatement.nameToken).bind fun name name' hname => ?_
  rw [hname.1.value]
  refine (mirrors_read (Tree.readParameters_agrees hstatement)).bind fun parameters _ hparameters => ?_
  subst hparameters
  refine (mirrors_lookUp (Tree.readReturns_agrees hstatement)).bind fun returns _ hreturns => ?_
  subst hreturns
  refine (mirrors_lookUp hstatement.line).bind fun _ _ hln => ?_
  have hargs := Value.plain_arguments parameters
  refine (mirrors_append_written hf .function hln hargs).bind fun header header' hheader => ?_
  obtain rfl : header' = header.renumber f := hheader
  have hdeclare : (modifyGet (Store.declareFunction · name.value header) : LowerM Store (Option Address)).Mirrors f
      (fun a a' => a' = a.map (·.renumber f)) (modifyGet (Store.declareFunction · name.value (header.renumber f))) :=
    mirrors_modifyGet fun s s' hs => hs.declareFunction name.value header
  have hbody := mirrors_lowerBody hparts hf (rfl : header.Renumbers f _) (some (parameters.filterMap (·.name)))
  have hrest : (lowerDeclared parts statement name.value header parameters).Mirrors f Eq
      (lowerDeclared parts' statement' name.value (header.renumber f) parameters) := by
    refine hdeclare.bind fun previous previous' hprevious => ?_
    subst hprevious
    cases previous with
    | none => exact hbody
    | some previous => exact Mirrors.bind (R := Eq) mirrors_throw fun _ _ _ => hbody
  cases returns with
  | none => exact hrest
  | some names => exact Mirrors.bind (mirrors_modify fun s s' hs => hs.outputLast names) fun _ _ _ => hrest

theorem mirrors_statement : (statement t parts p).Mirrors f Eq (statement t' parts' (p.map (·.renumber f))) := by
  unfold statement
  rw [h.tag]
  cases Statement.ofTag? t.tag with
  | none => exact mirrors_throw
  | some kind =>
    cases kind with
    | container => exact mirrors_lowerAll hparts
    | assignment => exact mirrors_lowerAssignment hf h
    | absoluteExpression => exact mirrors_lowerExpression hf h
    | service => exact mirrors_lowerService hparts hf h
    | mutation => exact mirrors_lowerMutation hparts hf h
    | chain => exact mirrors_continueMutation hf h
    | arguments => exact mirrors_continueArguments hf h
    | call => exact (mirrors_callLine hf h).bind fun _ _ _ => mirrors_pure rfl
    | when => exact mirrors_lowerWhen hparts hf h
    | if_ => exact mirrors_lowerIf hparts hf h
    | elseIf => exact mirrors_lowerElseIf hparts hf h
    | else_ => exact mirrors_lowerLastBranch hparts hf h .else_
    | foreach => exact mirrors_lowerForeach hparts hf h
    | while_ => exact mirrors_lowerWhile hparts hf h
    | try_ => exact mirrors_lowerTry hparts hf h
    | catch_ => exact mirrors_lowerCatch hparts hf h
    | finally_ => exact mirrors_lowerLastBranch hparts hf h .finally_
    | function => exact mirrors_lowerFunction hparts hf h
    | return_ => exact mirrors_lowerReturn hf h
    | break_ => exact mirrors_lowerBreak hf h
    | throw => exact mirrors_lowerThrow hf h
    | import_ => exact mirrors_lowerImport h

end Parts

/-! ### Whole programs -/

/-- Lowering two trees that are alike from stores that mirror each other. -/
theorem Tree.lower_mirrors {f : UInt32 → UInt32} (hf : Function.Injective f) (t : Tree) :
    ∀ t', t.Alike (Token.Rewritten f) t' → ∀ p, (t.lower p).Mirrors f Eq (t'.lower (p.map (·.renumber f))) := by
  induction t using subtreeInduction with
  | step t ih =>
    intro t' h p
    rw [Tree.lower_eq, Tree.lower_eq]
    refine mirrors_statement ?_ hf h
    refine List.forall₂_map_left_iff.mpr (List.forall₂_map_right_iff.mpr ?_)
    exact forall₂_imp_mem h.subtrees fun c hc c' halike => ⟨halike, ih c hc c' halike⟩

/-- If the source lines of a program are numbered anew, no two alike, and its columns are changed in any way, the
    program compiles to the same lines with the new numbers, provided that no token mentions a variable that
    operands are computed into. -/
theorem compile_renumber {f : UInt32 → UInt32} {t t' : Tree} {m : Manifest} (hf : Function.Injective f)
    (ht : t.Alike (Token.Moved f) t') (hclean : ∀ word ∈ t.words, Text.Clean word.value) (hm : compile t = .ok m) :
    compile t' = .ok (m.renumber f) := by
  have halike : t.Alike (Token.Rewritten f) t' := ht.and_words hclean
  unfold compile at hm ⊢
  split at hm
  · rename_i s hs
    obtain rfl := Except.ok.inj hm
    obtain ⟨⟨⟩, s', hs', -, hmirrors⟩ := t.lower_mirrors hf t' halike none {} {} .empty () s hs
    rw [Option.map_none] at hs'
    rw [hs']
    refine congrArg Except.ok ?_
    simp only [Store.manifest, Manifest.renumber, hmirrors.lines, hmirrors.modules, hmirrors.functions, hmirrors.services,
      List.head?_map, Option.map_map]
    rfl
  · cases hm

namespace Tree

mutual

/-- The tree with its tokens at other places. -/
def relocate (g : Position → Position) : Tree → Tree
  | ⟨tag, children⟩ => ⟨tag, relocateChildren g children⟩

/-- The children with their tokens at other places. -/
def relocateChildren (g : Position → Position) : List Child → List Child
  | [] => []
  | .token word :: rest => .token { word with position := g word.position } :: relocateChildren g rest
  | .tree t :: rest => .tree (t.relocate g) :: relocateChildren g rest

end

variable {f : UInt32 → UInt32} {g : Position → Position}

mutual

theorem alike_relocate (hg : ∀ p, (g p).line = f p.line) : ∀ t : Tree, t.Alike (Token.Moved f) (t.relocate g)
  | ⟨_, children⟩ => by
    rw [relocate]
    exact .node (alike_relocateChildren hg children)

theorem alike_relocateChildren (hg : ∀ p, (g p).line = f p.line) :
    ∀ cs : List Child, List.Forall₂ (Child.Alike (Token.Moved f)) cs (relocateChildren g cs)
  | [] => .nil
  | .token word :: rest => .cons (.token ⟨rfl, rfl, hg word.position⟩) (alike_relocateChildren hg rest)
  | .tree t :: rest => .cons (.tree (alike_relocate hg t)) (alike_relocateChildren hg rest)

end

end Tree

/-- A function, and a loop whose condition is computed by a service. -/
def Sample.watching : Tree :=
  Shape.script [
    Shape.functionBlock "f" [] [] [Shape.returnStatement none 2] 1,
    Shape.whileBlock (Shape.service "db" (some "poll") [] [] 3) [Shape.breakStatement 4] 3]

/-- Ten lines further down, and at another column. -/
def Sample.below (p : Position) : Position :=
  { line := p.line + 10, column := 7, endColumn := some 9 }

theorem compile_renumber_watching :
    ∃ m, compile Sample.watching = .ok m ∧
      m.lines.map (fun l => (l.address.text, l.assigned?)) =
        [("1", none), ("2", none), ("3", some "__p-3"), ("3.1", none), ("4", none), ("3.2", some "__p-3")] ∧
      compile (Sample.watching.relocate Sample.below) = .ok (m.renumber (· + 10)) ∧
      (m.renumber (· + 10)).lines.map (fun l => (l.address.text, l.assigned?)) =
        [("11", none), ("12", none), ("13", some "__p-13"), ("13.1", none), ("14", none), ("13.2", some "__p-13")] := by
  obtain ⟨m, hm⟩ := ok_of_isOk (x := compile Sample.watching) (by decide +kernel)
  have hclean : ∀ word ∈ Sample.watching.words, Text.Clean word.value := by decide +kernel
  have hinjective : Function.Injective fun n : UInt32 => n + 10 := fun a b h => by simpa using h
  have halike : Sample.watching.Alike (Token.Moved (· + 10)) (Sample.watching.relocate Sample.below) :=
    Tree.alike_relocate (fun _ => rfl) _
  have hrenumbered := compile_renumber hinjective halike hclean hm
  have hlines : (compile Sample.watching).map (fun m => m.lines.map fun l => (l.address.text, l.assigned?)) =
      .ok [("1", none), ("2", none), ("3", some "__p-3"), ("3.1", none), ("4", none), ("3.2", some "__p-3")] := by
    decide +kernel
  have hlines' : (compile (Sample.watching.relocate Sample.below)).map
      (fun m => m.lines.map fun l => (l.address.text, l.assigned?)) =
      .ok [("11", none), ("12", none), ("13", some "__p-13"), ("13.1", none), ("14", none), ("13.2", some "__p-13")] := by
    decide +kernel
  rw [hm] at hlines
  rw [hrenumbered] at hlines'
  exact ⟨m, hm, Except.ok.inj hlines, hrenumbered, Except.ok.inj hlines'⟩

end Flowline
