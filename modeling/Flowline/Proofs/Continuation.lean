import Flowline.Proofs.Bracketing
import Flowline.Proofs.Calls
import Flowline.Proofs.Grammar

/-! Statements that continue the line before. Arguments continue a service call and an indented chain continues
    a mutation: they add operands to the line that was appended last, and do nothing else. So a call or a
    mutation may be written in one piece or be continued in the next statements or in its own body, and the
    store is the same. The line that is continued stands in the body of the statement, at any depth. -/

namespace Flowline

/-! ### Actions that end with an answer -/

namespace LowerM

variable {α β : Type} {s u : Store} {a : α}

theorem bind_eq_ok {m : LowerM Store α} {f : α → LowerM Store β} {b : β} :
    (m >>= f) s = .ok b u ↔ ∃ a t, m s = .ok a t ∧ f a t = .ok b u := by
  show EStateM.bind m f s = .ok b u ↔ _
  unfold EStateM.bind
  cases m s with
  | ok a t => simp
  | error d t => simp

theorem bind_of_ok {m : LowerM Store α} {t : Store} (hm : m s = .ok a t) (f : α → LowerM Store β) :
    (m >>= f) s = f a t := by
  show EStateM.bind m f s = _
  rw [EStateM.bind, hm]

theorem pure_eq_ok {b : α} : (pure a : LowerM Store α) s = .ok b u ↔ b = a ∧ u = s := by
  show EStateM.Result.ok a s = .ok b u ↔ _
  simp [eq_comm]

theorem lookUp_eq_ok {x : Except Missing α} : (liftM x : LowerM Store α) s = .ok a u ↔ x = .ok a ∧ u = s := by
  cases x with
  | ok b =>
    show EStateM.Result.ok b s = .ok a u ↔ _
    simp [eq_comm]
  | error e =>
    show EStateM.Result.error _ s = .ok a u ↔ _
    simp

theorem read_eq_ok {x : Except Malformed α} : (liftM x : LowerM Store α) s = .ok a u ↔ x = .ok a ∧ u = s := by
  cases x with
  | ok b =>
    show EStateM.Result.ok b s = .ok a u ↔ _
    simp [eq_comm]
  | error e =>
    show EStateM.Result.error _ s = .ok a u ↔ _
    simp

theorem append_eq_ok {m : Method} {ln : UInt32} {d : Draft} {h : Address} :
    append m ln d s = .ok h u ↔ h = s.fresh ln ∧ u = (s.append m ln d).2 := by
  show EStateM.Result.ok (s.fresh ln) (s.append m ln d).2 = .ok h u ↔ _
  simp [eq_comm]

theorem invoke_eq_ok {place : Tree} {run : Store → Except Diagnostic (Address × Store)} {h : Address} :
    invoke place run s = .ok h u ↔ run s = .ok (h, u) := by
  unfold invoke
  cases run s with
  | ok r => simp [Prod.ext_iff]
  | error d => simp

end LowerM

/-! ### The line appended last -/

section Last

variable {s u : Store} {init : List Line} {l : Line} {m : Method} {more : List Value}

theorem Keyed.addArgs (h : Keyed (init ++ [l])) (more : List Value) : Keyed (init ++ [l.addArgs more]) := by
  have hlast : List.Forall₂ (fun k k' : Line => k'.address = k.address ∧ k'.sourceLine = k.sourceLine)
      (init ++ [l]) (init ++ [l.addArgs more]) :=
    List.rel_append (List.forall₂_same.mpr fun _ _ => ⟨rfl, rfl⟩) (.cons ⟨rfl, rfl⟩ .nil)
  exact keyed_of_forall₂ (fun hr => hr) hlast h

/-- The last line alone has its address, so operands are added to it alone. -/
theorem Store.addArgsToLast_concat (hk : Keyed s.lines) (hs : s.lines = init ++ [l]) (more : List Value) :
    s.addArgsToLast m more =
      if l.method = m then (true, { s with lines := init ++ [l.addArgs more] }) else (false, s) := by
  have hlast : s.last? = some l.address := by simp [Store.last?, hs]
  have hline : s.line? l.address = some l := (find?_address_iff hk.nodup).mpr ⟨by simp [hs], rfl⟩
  have hmap : s.lines.map (fun k => if k.address = l.address then k.addArgs more else k) = init ++ [l.addArgs more] := by
    have hne : ∀ k ∈ init, k.address ≠ l.address := by
      have hnodup := hk.nodup
      rw [hs, List.map_append, List.nodup_append] at hnodup
      exact fun k hmem => hnodup.2.2 _ (List.mem_map_of_mem hmem) _ (by simp)
    rw [hs, List.map_append, List.map_singleton, if_pos rfl, List.map_congr_left fun k hmem => if_neg (hne k hmem),
      List.map_id']
  simp only [Store.addArgsToLast, hlast, Store.addArgs, hline, hmap]

/-- A continuation needs a last line of the expected method, and adds to that line alone. -/
theorem LowerM.continueLast_eq_ok {place : Tree} {code : Code} (hk : Keyed s.lines) :
    continueLast place m code more s = .ok () u ↔
      ∃ init l, s.lines = init ++ [l] ∧ l.method = m ∧ u = { s with lines := init ++ [l.addArgs more] } := by
  have hrun : continueLast place m code more s =
      if (s.addArgsToLast m more).1 = true then .ok () (s.addArgsToLast m more).2
      else .error { code, position := place.position?, context := [] } (s.addArgsToLast m more).2 := by
    show (liftM (place.ensure (s.addArgsToLast m more).1 code []) : LowerM Store Unit) (s.addArgsToLast m more).2 = _
    unfold Tree.ensure
    split <;> rfl
  rw [hrun]
  rcases List.eq_nil_or_concat s.lines with hs | ⟨init, l, hs⟩
  · simp [Store.addArgsToLast, Store.last?, hs]
  · rw [List.concat_eq_append] at hs
    have hlast : ∀ init' l', s.lines = init' ++ [l'] → init' = init ∧ l' = l := fun init' l' h => by
      simpa using List.append_inj' (h.symm.trans hs) rfl
    rw [s.addArgsToLast_concat hk hs]
    by_cases hm : l.method = m
    · simp only [hm, if_true]
      constructor
      · rintro ⟨rfl⟩
        exact ⟨init, l, hs, hm, rfl⟩
      · rintro ⟨init', l', hs', -, rfl⟩
        obtain ⟨rfl, rfl⟩ := hlast init' l' hs'
        rfl
    · simp only [hm, if_false, Bool.false_eq_true]
      constructor
      · nofun
      · rintro ⟨init', l', hs', hm', -⟩
        obtain ⟨-, rfl⟩ := hlast init' l' hs'
        exact absurd hm' hm

end Last

/-! ### Continuations -/

namespace LowerM

/-- Whenever the last line has the method, the action adds operands to that line and does nothing else. -/
def Continues (a : LowerM Store Unit) (m : Method) (more : List Value) : Prop :=
  ∀ (s : Store) (init : List Line) (l : Line), Keyed s.lines → s.lines = init ++ [l] → l.method = m →
    l.args.isSome = true → a s = .ok () { s with lines := init ++ [l.addArgs more] }

variable {a b : LowerM Store Unit} {m : Method} {xs ys : List Value} {p : Option Address}

theorem Continues.nil : Continues (pure ()) m [] := by
  intro s init l _ hs _ hargs
  obtain ⟨xs, hxs⟩ := Option.isSome_iff_exists.mp hargs
  have hl : l.addArgs [] = l := by
    rw [Line.addArgs, List.append_nil, hxs, Option.getD_some, ← hxs]
  rw [hl, ← hs]
  rfl

theorem Continues.andThen (ha : Continues a m xs) (hb : Continues b m ys) :
    Continues (a >>= fun _ => b) m (xs ++ ys) := by
  intro s init l hk hs hm hargs
  refine bind_eq_ok.mpr ⟨(), _, ha s init l hk hs hm hargs, ?_⟩
  have hnext := hb { s with lines := init ++ [l.addArgs xs] } init (l.addArgs xs) ((hs ▸ hk).addArgs xs) rfl hm rfl
  have hargs' : (l.addArgs xs).addArgs ys = l.addArgs (xs ++ ys) := by simp [Line.addArgs]
  rwa [hargs'] at hnext

theorem continues_continueLast (place : Tree) (code : Code) : Continues (continueLast place m code xs) m xs :=
  fun _ init l hk hs hm _ => (continueLast_eq_ok hk).mpr ⟨init, l, hs, hm, rfl⟩

/-- The scope of a body is closed again, so a body that continues its header does nothing else. -/
theorem Continues.lowerBody {parts : List (Part Store)} {h : Address} {output : Option (List String)} {body : Part Store}
    (hfind : parts.find? (·.tree.tag == "nested_block") = some body) (hbody : Continues (body.lower (some h)) m xs) :
    Continues (Part.lowerBody parts h output) m xs := by
  intro s init l hk hs hm hargs
  have hrun := hbody (s.openScope h (output.getD [])) init l hk hs hm hargs
  obtain ⟨f, hframes, howner⟩ := s.openScope_frames h (output.getD [])
  unfold Part.lowerBody
  rw [hfind]
  refine bind_eq_ok.mpr ⟨(), _, rfl, bind_eq_ok.mpr ⟨(), _, hrun, ?_⟩⟩
  show EStateM.Result.ok () (Store.closeScope _ h) = _
  rw [Store.closeScope, Scopes.pop_eq hframes howner]
  rfl

/-- A line that is continued right after it was appended is as if it had been appended so. -/
theorem Continues.append {s : Store} (ha : Continues a m ys) (hs : s.Linked) (ln : UInt32) (d : Draft) :
    a (s.append m ln { d with args := some xs }).2 = .ok () (s.append m ln { d with args := some (xs ++ ys) }).2 :=
  ha _ _ _ (hs.append m ln _).keyed (s.append_lines m ln _) rfl rfl

end LowerM

/-! ### Mutations -/

namespace Tree

theorem subtrees_wrap (tag : String) (ts : List Tree) : (Shape.wrap tag ts).subtrees = ts := by
  rw [subtrees, Shape.wrap, List.filterMap_map]
  exact List.filterMap_some

theorem findAll_wrap {tag kind : String} (h : tag ≠ kind) (ts : List Tree) :
    (Shape.wrap tag ts).findAll kind = ts.flatMap (·.findAll kind) := by
  rw [findAll_eq, subtrees_wrap, if_neg (by simpa [Shape.wrap] using h)]

theorem positionOfChildren?_append {xs : List Child} (h : (positionOfChildren? xs).isSome = true) (ys : List Child) :
    positionOfChildren? (xs ++ ys) = positionOfChildren? xs := by
  induction xs with
  | nil => cases h
  | cons c xs ih =>
    cases c with
    | token => rfl
    | tree t =>
      rw [List.cons_append, positionOfChildren?, positionOfChildren?]
      cases hp : t.position? with
      | some position => rfl
      | none =>
        rw [positionOfChildren?, hp] at h
        exact ih h

theorem position?_of_tokenAt {t : Tree} {token : Token} (h : t.tokenAt 0 = .ok token) :
    t.position? = some token.position := by
  obtain ⟨tag, children⟩ := t
  cases children with
  | nil => cases h
  | cons c rest =>
    cases c with
    | tree => cases h
    | token first =>
      obtain rfl := Except.ok.inj h
      rfl

theorem position?_of_readMutation {t : Tree} {v : Value} (h : t.readMutation = .ok v) : t.position?.isSome = true := by
  unfold readMutation at h
  cases ht : t.tokenAt 0 with
  | ok token => rw [position?_of_tokenAt ht, Option.isSome_some]
  | error e =>
    rw [ht] at h
    cases h

end Tree

section Mutations

variable {s u : Store} {p : Option Address} {h : Address} (subject fragment : Tree)

/-- A subject, a mutation of it, and the mutations that are chained to that one. -/
def Shape.chain (subject fragment : Tree) (fragments : List Tree) : Tree :=
  Shape.mutation subject fragment (fragments.map Shape.chained)

theorem LowerM.mutationLine_eq_ok {t : Tree} : mutationLine t p s = .ok h u ↔
    ∃ subject value fragment first chain ln, t.leadingTree = .ok subject ∧ subject.readValue = .ok value ∧
      t.child "mutation_fragment" = .ok fragment ∧ fragment.readMutation = .ok first ∧ t.readChain = .ok chain ∧
      t.line = .ok ln ∧ h = s.fresh ln ∧
      u = (s.append .mutation ln { args := some (value :: first :: chain), parent := p }).2 := by
  simp only [mutationLine, bind_eq_ok, read_eq_ok, lookUp_eq_ok, append_eq_ok]
  constructor
  · rintro ⟨subject, _, ⟨hsubject, rfl⟩, value, _, ⟨hvalue, rfl⟩, fragment, _, ⟨hfragment, rfl⟩, first, _,
      ⟨hfirst, rfl⟩, chain, _, ⟨hchain, rfl⟩, ln, _, ⟨hln, rfl⟩, hh, hu⟩
    exact ⟨subject, value, fragment, first, chain, ln, hsubject, hvalue, hfragment, hfirst, hchain, hln, hh, hu⟩
  · rintro ⟨subject, value, fragment, first, chain, ln, hsubject, hvalue, hfragment, hfirst, hchain, hln, hh, hu⟩
    exact ⟨subject, s, ⟨hsubject, rfl⟩, value, s, ⟨hvalue, rfl⟩, fragment, s, ⟨hfragment, rfl⟩, first, s,
      ⟨hfirst, rfl⟩, chain, s, ⟨hchain, rfl⟩, ln, s, ⟨hln, rfl⟩, hh, hu⟩

theorem Shape.readChain_chain (c₁ c₂ : List Tree) :
    (Shape.chain subject fragment (c₁ ++ c₂)).readChain = do
      return (← (Shape.chain subject fragment c₁).readChain) ++ (← (Shape.indentedChain c₂).readChain) := by
  have hsplit : (Shape.chain subject fragment (c₁ ++ c₂)).findAll "chained_mutation" =
      (Shape.chain subject fragment c₁).findAll "chained_mutation" ++
        (Shape.indentedChain c₂).findAll "chained_mutation" := by
    simp [Shape.chain, Shape.mutation, Shape.indentedChain, Tree.findAll_wrap]
  rw [Tree.readChain, hsplit, List.mapM_append]
  rfl

/-- What is chained is not the mutation that comes first. -/
theorem Shape.child_chain (fragments : List Tree) :
    (Shape.chain subject fragment fragments).child "mutation_fragment" =
      (Shape.chain subject fragment []).child "mutation_fragment" := by
  have hfind : (Shape.chain subject fragment fragments).child? "mutation_fragment" =
      ([subject, fragment] ++ fragments.map Shape.chained).find? (·.tag == "mutation_fragment") :=
    congrArg (List.find? _) (Tree.subtrees_wrap _ _)
  have hnone : (fragments.map Shape.chained).find? (·.tag == "mutation_fragment") = none := by
    refine List.find?_eq_none.mpr fun t ht => ?_
    obtain ⟨f, -, rfl⟩ := List.mem_map.mp ht
    show ¬("chained_mutation" == "mutation_fragment") = true
    decide
  rw [List.find?_append, hnone, Option.or_none] at hfind
  rw [Tree.child, Tree.child, hfind]
  rfl

/-- The mutation that comes first has a name, so what is chained to it has no part in where it all starts. -/
theorem Shape.line_chain (fragments : List Tree) {first : Tree} {v : Value}
    (hf : (Shape.chain subject fragment []).child "mutation_fragment" = .ok first) (hv : first.readMutation = .ok v) :
    (Shape.chain subject fragment fragments).line = (Shape.chain subject fragment []).line := by
  have hmem : Child.tree first ∈ [Child.tree subject, .tree fragment] :=
    Tree.mem_subtrees.mp (List.mem_of_find?_eq_some (Tree.child?_of_child hf))
  have hsome : (Tree.positionOfChildren? [Child.tree subject, .tree fragment]).isSome = true := by
    refine Tree.positionOfChildren?_isSome hmem ?_
    rintro _ ⟨⟩
    exact Tree.position?_of_readMutation hv
  have hposition : (Shape.chain subject fragment fragments).position? = (Shape.chain subject fragment []).position? := by
    exact Tree.positionOfChildren?_append hsome ((fragments.map Shape.chained).map .tree)
  rw [Tree.line, Tree.line, hposition]
  rfl

/-- The line of a chain in two parts is that of the first part, continued by the second. -/
theorem LowerM.mutationLine_split (hs : s.Linked) {c₁ c₂ : List Tree}
    (hline : mutationLine (Shape.chain subject fragment (c₁ ++ c₂)) p s = .ok h u) :
    ∃ t more, mutationLine (Shape.chain subject fragment c₁) p s = .ok h t ∧
      (Shape.indentedChain c₂).readChain = .ok more ∧ ∀ a, Continues a .mutation more → a t = .ok () u := by
  obtain ⟨t, value, f, first, chain, ln, ht, hvalue, hf, hfirst, hchain, hln, hh, rfl⟩ := mutationLine_eq_ok.mp hline
  rw [Shape.child_chain] at hf
  rw [Shape.line_chain _ _ _ hf hfirst] at hln
  rw [Shape.readChain_chain] at hchain
  obtain ⟨xs, hxs, hrest⟩ := except_bind_eq_ok.mp hchain
  obtain ⟨ys, hys, ⟨⟩⟩ := except_bind_eq_ok.mp hrest
  refine ⟨_, ys, mutationLine_eq_ok.mpr ⟨t, value, f, first, xs, ln, ht, hvalue, ?_, hfirst, hxs, ?_, hh, rfl⟩, hys,
    fun a ha => ha.append hs ln { parent := p }⟩
  · rw [Shape.child_chain, hf]
  · rw [Shape.line_chain _ _ _ hf hfirst, hln]

end Mutations

/-! ### Blocks -/

section Blocks

variable {s u : Store} {p : Option Address} {m : Method} {xs : List Value}

theorem Tree.lower_body (ts : List Tree) (p : Option Address) :
    ((Shape.body ts).lower p : LowerM Store Unit) = ts.forM (·.lower p) := by
  rw [Tree.lower_eq, Shape.body, Tree.subtrees_wrap]
  exact List.forM_map

/-- A header with or without a body, as parts. -/
def Shape.headed (header : Tree) (body : Option Tree) : List (Part Store) :=
  (header :: body.toList).map fun c => ⟨c, c.lower⟩

theorem Part.lowerBody_none {header : Tree} (ht : header.tag ≠ "nested_block") (h : Address)
    (output : Option (List String)) : Part.lowerBody (Shape.headed header none) h output = pure () := by
  simp [Part.lowerBody, Shape.headed, ht]

/-- Statements that continue a header may be its body. -/
theorem LowerM.Continues.headed {header : Tree} (ht : header.tag ≠ "nested_block") {ts : List Tree} {h : Address}
    (hts : Continues (ts.forM (·.lower (some h))) m xs) (output : Option (List String)) :
    Continues (Part.lowerBody (Shape.headed header (some (Shape.body ts))) h output) m xs := by
  have hfind : (Shape.headed header (some (Shape.body ts))).find? (·.tree.tag == "nested_block") =
      some ⟨Shape.body ts, (Shape.body ts).lower⟩ := by
    rw [Shape.headed, List.map_cons, List.find?_cons_of_neg (by simpa using ht)]
    rfl
  rw [← Tree.lower_body] at hts
  exact .lowerBody hfind hts

theorem Tree.lower_mutationBlock {mutation : Tree} (ht : mutation.tag = "mutation") (body : Option Tree) :
    (Shape.mutationBlock mutation body).lower p =
      LowerM.mutationLine mutation p >>= fun h => Part.lowerBody (Shape.headed mutation body) h none := by
  have hsub : (Shape.mutationBlock mutation body).subtrees = mutation :: body.toList := subtrees_wrap _ _
  have hchild : (Shape.mutationBlock mutation body).child "mutation" = .ok mutation := by
    rw [child, child?, hsub, List.find?_cons_of_pos (by simpa using ht)]
  rw [Tree.lower_eq, hsub]
  show LowerM.lowerMutation (Shape.mutationBlock mutation body) (Shape.headed mutation body) p = _
  unfold LowerM.lowerMutation
  rw [hchild]
  rfl

theorem LowerM.continues_indentedChain {fragments : List Tree} (h : (Shape.indentedChain fragments).readChain = .ok xs) :
    Continues ((Shape.indentedChain fragments).lower p) .mutation xs := by
  rw [Tree.lower_eq]
  show Continues (continueMutation (Shape.indentedChain fragments)) .mutation xs
  unfold continueMutation
  rw [h]
  exact continues_continueLast _ _

/-- A chain of mutations may be continued after its line, or in its body. -/
theorem lower_mutationBlock_split (hs : s.Linked) {subject fragment : Tree} {c₁ c₂ : List Tree}
    (hline : (Shape.mutationBlock (Shape.chain subject fragment (c₁ ++ c₂)) none).lower p s = .ok () u) :
    (do
      (Shape.mutationBlock (Shape.chain subject fragment c₁) none).lower p
      (Shape.indentedChain c₂).lower p) s = .ok () u ∧
    (Shape.mutationBlock (Shape.chain subject fragment c₁) (some (Shape.body [Shape.indentedChain c₂]))).lower p s =
      .ok () u := by
  have htag : ∀ c, (Shape.chain subject fragment c).tag ≠ "nested_block" := fun c => by
    simp [Shape.chain, Shape.mutation, Shape.wrap]
  have hbare : ∀ c h, Part.lowerBody (Shape.headed (Shape.chain subject fragment c) none) h none = pure () :=
    fun c h => Part.lowerBody_none (htag c) h none
  rw [Tree.lower_mutationBlock rfl, LowerM.bind_eq_ok] at hline
  obtain ⟨h, t, ht, hbody⟩ := hline
  rw [hbare, LowerM.pure_eq_ok] at hbody
  obtain ⟨-, rfl⟩ := hbody
  obtain ⟨v, more, hfirst, hmore, hcontinue⟩ := LowerM.mutationLine_split subject fragment hs ht
  constructor
  · refine LowerM.bind_eq_ok.mpr ⟨(), v, ?_, hcontinue _ (LowerM.continues_indentedChain hmore)⟩
    rw [Tree.lower_mutationBlock rfl]
    exact LowerM.bind_eq_ok.mpr ⟨h, v, hfirst, by rw [hbare]; rfl⟩
  · have hchain : LowerM.Continues ([Shape.indentedChain c₂].forM (·.lower (some h))) .mutation (more ++ []) :=
      (LowerM.continues_indentedChain hmore).andThen .nil
    rw [List.append_nil] at hchain
    rw [Tree.lower_mutationBlock rfl]
    exact LowerM.bind_eq_ok.mpr ⟨h, v, hfirst, hcontinue _ (hchain.headed (htag c₁) none)⟩

end Blocks

/-! ### Service calls -/

section Services

variable {s u : Store} {p : Option Address}

/-- What the line of a service call holds besides the arguments. -/
def Request.draft (r : Request) (p : Option Address) : Draft :=
  { output := r.output, parent := p, service := some r.name, command := r.command }

/-- A service that is no handle is registered, and its name has no dot. -/
theorem Store.execute_eq_ok {r : Request} (hr : s.isHandle r.name = false) {ln : UInt32} {h : Address} :
    s.execute ln r p = .ok (h, u) ↔ Text.has r.name '.' = false ∧ h = (s.registerService r.name).fresh ln ∧
      u = ((s.registerService r.name).append .execute ln { r.draft p with args := some r.args }).2 := by
  simp only [Store.execute, Store.invoke, hr, Bool.false_eq_true, if_false]
  cases Text.has r.name '.' with
  | true => simp
  | false => simp [Prod.ext_iff, Request.draft, eq_comm]

/-- The line of a service call with all its arguments is the line with some of them, continued by the rest. -/
theorem Store.execute_split (hs : s.Linked) {r : Request} (hr : s.isHandle r.name = false) {ln : UInt32} {h : Address}
    {more : List Value} (ht : s.execute ln { r with args := r.args ++ more } p = .ok (h, u)) :
    ∃ t, s.execute ln r p = .ok (h, t) ∧ ∀ a, LowerM.Continues a .execute more → a t = .ok () u := by
  obtain ⟨hdot, hh, rfl⟩ := (Store.execute_eq_ok (r := { r with args := r.args ++ more }) hr).mp ht
  have hlinked : (s.registerService r.name).Linked := hs.of_lines (s.registerService_lines r.name)
  exact ⟨_, (Store.execute_eq_ok hr).mpr ⟨hdot, hh, rfl⟩, fun a ha => ha.append hlinked ln (r.draft p)⟩

theorem LowerM.lowerService_eq_ok {t service : Tree} {parts : List (Part Store)} (ht : t.tag ≠ "service")
    (hchild : t.child "service" = .ok service) (hv : targetsValue service s = .ok false s) :
    lowerService t parts p s = .ok () u ↔ ∃ call ln h w, service.readRequest = .ok call ∧ service.line = .ok ln ∧
      s.execute ln call p = .ok (h, w) ∧ Part.lowerBody parts h call.output w = .ok () u := by
  have hread : (liftM (t.child "service") : LowerM Store Tree) s = .ok service s := lookUp_eq_ok.mpr ⟨hchild, rfl⟩
  unfold lowerService
  rw [if_neg ht, bind_of_ok hread]
  dsimp only
  rw [bind_of_ok hv, if_neg Bool.false_ne_true]
  simp only [bind_eq_ok, read_eq_ok, lookUp_eq_ok, invoke_eq_ok]
  constructor
  · rintro ⟨call, _, ⟨hcall, rfl⟩, ln, _, ⟨hln, rfl⟩, h, w, hw, hbody⟩
    exact ⟨call, ln, h, w, hcall, hln, hw, hbody⟩
  · rintro ⟨call, ln, h, w, hcall, hln, hw, hbody⟩
    exact ⟨call, s, ⟨hcall, rfl⟩, ln, s, ⟨hln, rfl⟩, h, w, hw, hbody⟩

variable (name : String) (command : Option String) (outputs : List String)
  (line : UInt32)

theorem Shape.path_eq : ∃ rest, Shape.path name line = ⟨"path", Shape.leaf "NAME" (Text.root name) line :: rest⟩ := by
  have hroot := Text.dotted_head? name
  unfold Shape.path
  cases hd : Text.dotted name with
  | nil => simp [hd] at hroot
  | cons root names =>
    rw [hd] at hroot
    exact ⟨_, by rw [Option.some.inj hroot]⟩

theorem Shape.line_service (arguments : List Tree) :
    (Shape.service name command arguments outputs line).line = .ok line := by
  obtain ⟨rest, hpath⟩ := Shape.path_eq name line
  rw [Shape.service, hpath]
  rfl

theorem Shape.child_path_service (arguments : List Tree) :
    (Shape.service name command arguments outputs line).child "path" = .ok (Shape.path name line) := by
  obtain ⟨rest, hpath⟩ := Shape.path_eq name line
  rw [Shape.service, hpath]
  rfl

/-- A service call starts with the name of a value exactly if the root of its path is one. -/
theorem LowerM.targetsValue_service (arguments : List Tree) :
    targetsValue (Shape.service name command arguments outputs line) s = .ok (s.isValue (Text.root name)) s := by
  obtain ⟨rest, hpath⟩ := Shape.path_eq name line
  unfold targetsValue
  rw [Shape.child_path_service, hpath]
  rfl

theorem Tree.readChildArguments_eq (t : Tree) :
    t.readChildArguments = (t.childrenTagged "arguments").mapM readArgument := by
  obtain ⟨tag, children⟩ := t
  show argumentsOf children = ((children.filterMap Child.tree?).filter (·.tag == "arguments")).mapM readArgument
  induction children with
  | nil => rfl
  | cons c cs ih =>
    cases c with
    | token => exact ih
    | tree t => by_cases ht : t.tag = "arguments" <;> simp [argumentsOf, Child.tree?, ht, ih]

/-- A service call with arguments that have been read. -/
def Shape.request (args : List Argument) : Request :=
  { name := (Shape.path name line).dottedText, command, args := args.map .argument,
    output := if outputs.isEmpty then none else some outputs }

/-- The command, the arguments and the output of a service call. -/
def Shape.fragment (arguments : List Tree) : Tree :=
  Shape.wrap "service_fragment"
    ((command.map fun word => (⟨"command", [Shape.leaf "NAME" word line]⟩ : Tree)).toList ++ arguments ++
      Shape.outputIfAny outputs line)

section Fragment

variable {arguments : List Tree} (ha : ∀ t ∈ arguments, t.tag = "arguments")

include ha

/-- The arguments have no part in what else is found in the fragment. -/
theorem Shape.child?_fragment {tag : String} (htag : "arguments" ≠ tag) :
    (Shape.fragment command outputs line arguments).child? tag = (Shape.fragment command outputs line []).child? tag := by
  have hnone : arguments.find? (·.tag == tag) = none := by
    refine List.find?_eq_none.mpr fun t ht => ?_
    rw [ha t ht]
    simpa using htag
  simp only [Tree.child?, Shape.fragment, Tree.subtrees_wrap, List.find?_append, hnone, List.find?_nil]

theorem Shape.readArguments_fragment : (Shape.fragment command outputs line arguments).readChildArguments =
    arguments.mapM Tree.readArgument := by
  have harguments : arguments.filter (·.tag == "arguments") = arguments :=
    List.filter_eq_self.mpr fun t ht => by simp [ha t ht]
  rw [Tree.readChildArguments_eq, Tree.childrenTagged, Shape.fragment, Tree.subtrees_wrap, List.filter_append,
    List.filter_append, harguments]
  cases command <;> cases outputs <;> simp [Shape.outputIfAny, Shape.output]

theorem Shape.readRequest_service :
    (Shape.service name command arguments outputs line).readRequest =
      (do return Shape.request name command outputs line (← arguments.mapM Tree.readArgument)) := by
  obtain ⟨rest, hpath⟩ := Shape.path_eq name line
  have hfragment : (Shape.service name command arguments outputs line).child? "service_fragment" =
      some (Shape.fragment command outputs line arguments) := by
    rw [Shape.service, hpath]
    rfl
  have hcommand : (Shape.service name command arguments outputs line).readCommand = .ok command := by
    rw [Tree.readCommand, hfragment, Option.bind_some, Shape.child?_fragment command outputs line ha (by decide)]
    cases command <;> cases outputs <;> rfl
  have hargs : Tree.fragmentArguments (Shape.service name command arguments outputs line).children =
      arguments.mapM Tree.readArgument := by
    rw [← Shape.readArguments_fragment command outputs line ha, Shape.service, hpath]
    rfl
  have houtput : Tree.outputNames? ((Shape.fragment command outputs line arguments).child? "output") =
      if outputs.isEmpty then none else some outputs := by
    rw [Shape.child?_fragment command outputs line ha (by decide)]
    have hfind : (Shape.fragment command outputs line []).child? "output" = (Shape.outputIfAny outputs line).head? := by
      cases command <;> cases outputs <;> rfl
    rw [hfind]
    cases outputs with
    | nil => rfl
    | cons output outputs =>
      simp [Shape.outputIfAny, Tree.outputNames?, Tree.tokens, Shape.output, Shape.leaf, Shape.token, Child.token?,
        List.filterMap_map, Function.comp_def]
  unfold Tree.readRequest
  rw [Shape.child_path_service, hcommand, hargs, hfragment, Option.bind_some, houtput]
  rfl

end Fragment

/-- The line of a service call that does not start with the name of a value, and then its body. -/
theorem Tree.lower_serviceBlock_eq_ok {arguments : List Tree} (ha : ∀ t ∈ arguments, t.tag = "arguments")
    (hv : s.isValue (Text.root name) = false) (body : Option Tree) :
    (Shape.serviceBlock (Shape.service name command arguments outputs line) body).lower p s = .ok () u ↔
      ∃ args h t, arguments.mapM readArgument = .ok args ∧
        s.execute line (Shape.request name command outputs line args) p = .ok (h, t) ∧
        Part.lowerBody (Shape.headed (Shape.service name command arguments outputs line) body) h
          (Shape.request name command outputs line args).output t = .ok () u := by
  have hsub : (Shape.serviceBlock (Shape.service name command arguments outputs line) body).subtrees =
      Shape.service name command arguments outputs line :: body.toList := subtrees_wrap _ _
  have hchild : (Shape.serviceBlock (Shape.service name command arguments outputs line) body).child "service" =
      .ok (Shape.service name command arguments outputs line) := by
    rw [child, child?, hsub]
    rfl
  have htargets := LowerM.targetsValue_service (s := s) name command outputs line arguments
  rw [hv] at htargets
  rw [Tree.lower_eq, hsub]
  show LowerM.lowerService (Shape.serviceBlock (Shape.service name command arguments outputs line) body)
    (Shape.headed (Shape.service name command arguments outputs line) body) p s = .ok () u ↔ _
  rw [LowerM.lowerService_eq_ok (by simp [Shape.serviceBlock, Shape.wrap]) hchild htargets,
    Shape.readRequest_service name command outputs line ha, Shape.line_service]
  constructor
  · rintro ⟨call, ln, h, t, hcall, ⟨⟩, ht, hbody⟩
    obtain ⟨args, hargs, ⟨⟩⟩ := except_bind_eq_ok.mp hcall
    exact ⟨args, h, t, hargs, ht, hbody⟩
  · rintro ⟨args, h, t, hargs, ht, hbody⟩
    exact ⟨_, line, h, t, except_bind_eq_ok.mpr ⟨args, hargs, rfl⟩, rfl, ht, hbody⟩

theorem LowerM.continues_arguments {ts : List Tree} (hts : ∀ t ∈ ts, t.tag = "arguments") {xs : List Argument}
    (hxs : ts.mapM Tree.readArgument = .ok xs) : Continues (ts.forM (·.lower p)) .execute (xs.map .argument) := by
  induction ts generalizing xs with
  | nil =>
    cases hxs
    exact .nil
  | cons t ts ih =>
    rw [List.mapM_cons] at hxs
    obtain ⟨x, hx, hrest⟩ := except_bind_eq_ok.mp hxs
    obtain ⟨ys, hys, ⟨⟩⟩ := except_bind_eq_ok.mp hrest
    have htag := hts t List.mem_cons_self
    have hfirst : Continues (t.lower p) .execute [.argument x] := by
      have hread : t.readArguments = .ok [x] := by
        rw [Tree.readArguments, if_pos htag, hx]
        rfl
      have hlower : (t.lower p : LowerM Store Unit) = continueArguments t := by
        rw [Tree.lower_eq]
        unfold LowerM.statement
        rw [htag]
        rfl
      rw [hlower, continueArguments, hread]
      exact continues_continueLast _ _
    exact hfirst.andThen (ih (fun t' ht' => hts t' (List.mem_cons_of_mem _ ht')) hys)

/-- The arguments of a service call may be continued after its line, or in its body. -/
theorem lower_serviceBlock_split (hs : s.Linked) {a₁ a₂ : List Tree} (ha : ∀ t ∈ a₁ ++ a₂, t.tag = "arguments")
    (hv : s.isValue (Text.root name) = false) (hh : s.isHandle (Shape.path name line).dottedText = false)
    (hrun : (Shape.serviceBlock (Shape.service name command (a₁ ++ a₂) outputs line) none).lower p s = .ok () u) :
    (do
      (Shape.serviceBlock (Shape.service name command a₁ outputs line) none).lower p
      a₂.forM (·.lower p)) s = .ok () u ∧
    (Shape.serviceBlock (Shape.service name command a₁ outputs line) (some (Shape.body a₂))).lower p s = .ok () u := by
  have ha₁ : ∀ t ∈ a₁, t.tag = "arguments" := fun t ht => ha t (List.mem_append_left _ ht)
  have ha₂ : ∀ t ∈ a₂, t.tag = "arguments" := fun t ht => ha t (List.mem_append_right _ ht)
  have htag : ∀ as, (Shape.service name command as outputs line).tag ≠ "nested_block" := fun as => by
    simp [Shape.service, Shape.wrap]
  obtain ⟨args, h, t, hargs, ht, hbody⟩ := (Tree.lower_serviceBlock_eq_ok name command outputs line ha hv none).mp hrun
  rw [Part.lowerBody_none (htag _), LowerM.pure_eq_ok] at hbody
  obtain ⟨-, rfl⟩ := hbody
  rw [List.mapM_append] at hargs
  obtain ⟨xs, hxs, hrest⟩ := except_bind_eq_ok.mp hargs
  obtain ⟨ys, hys, ⟨⟩⟩ := except_bind_eq_ok.mp hrest
  have hsplit : Shape.request name command outputs line (xs ++ ys) =
      { Shape.request name command outputs line xs with
        args := (Shape.request name command outputs line xs).args ++ ys.map .argument } := by
    simp [Shape.request]
  rw [hsplit] at ht
  obtain ⟨t, hfirst, hcontinue⟩ := Store.execute_split (r := Shape.request name command outputs line xs) hs hh ht
  constructor
  · refine LowerM.bind_eq_ok.mpr ⟨(), t, ?_, hcontinue _ (LowerM.continues_arguments ha₂ hys)⟩
    refine (Tree.lower_serviceBlock_eq_ok name command outputs line ha₁ hv none).mpr ⟨xs, h, t, hxs, hfirst, ?_⟩
    rw [Part.lowerBody_none (htag _)]
    rfl
  · refine (Tree.lower_serviceBlock_eq_ok name command outputs line ha₁ hv _).mpr ⟨xs, h, t, hxs, hfirst, ?_⟩
    exact hcontinue _ ((LowerM.continues_arguments ha₂ hys).headed (htag _) _)

end Services

/-! ### In one piece or continued -/

/-- In any store that a session reaches, a chain of mutations and a service call that names neither a value nor
    a handle may be written in one piece, be continued by the statements that follow, or be continued in their
    own body: the store in the end is the same. -/
theorem lower_in_pieces {s : Store} (hs : s.Reachable) (p : Option Address) :
    (∀ (subject fragment : Tree) (c₁ c₂ : List Tree) (u : Store),
      (Shape.mutationBlock (Shape.chain subject fragment (c₁ ++ c₂)) none).lower p s = .ok () u →
        (do
          (Shape.mutationBlock (Shape.chain subject fragment c₁) none).lower p
          (Shape.indentedChain c₂).lower p) s = .ok () u ∧
        (Shape.mutationBlock (Shape.chain subject fragment c₁) (some (Shape.body [Shape.indentedChain c₂]))).lower p s =
          .ok () u) ∧
    ∀ (name : String) (command : Option String) (a₁ a₂ : List Tree) (outputs : List String) (line : UInt32) (u : Store),
      (∀ t ∈ a₁ ++ a₂, t.tag = "arguments") → s.isValue (Text.root name) = false →
      s.isHandle (Shape.path name line).dottedText = false →
      (Shape.serviceBlock (Shape.service name command (a₁ ++ a₂) outputs line) none).lower p s = .ok () u →
        (do
          (Shape.serviceBlock (Shape.service name command a₁ outputs line) none).lower p
          a₂.forM (·.lower p)) s = .ok () u ∧
        (Shape.serviceBlock (Shape.service name command a₁ outputs line) (some (Shape.body a₂))).lower p s = .ok () u := by
  refine ⟨fun subject fragment c₁ c₂ u hrun => lower_mutationBlock_split hs.linked hrun, ?_⟩
  intro name command a₁ a₂ outputs line u ha hv hh hrun
  exact lower_serviceBlock_split name command outputs line hs.linked ha hv hh hrun

namespace Sample

/-- `k: v`. -/
def argument (line : UInt32) : Tree :=
  Shape.argument (some "k") (Shape.path "v" line) line

/-- A mutation that takes an argument. -/
def step (name : String) (line : UInt32) : Tree :=
  Shape.mutationFragment name [argument line] line

end Sample

/-- Both are continued in the body of a service call, and so is a service call with an output. -/
theorem lower_in_pieces_client :
    ∃ s u v : Store, s.Reachable ∧ s.isHandle "client" = true ∧
      (Shape.mutationBlock (Shape.chain (Shape.path "a" 2) (Sample.step "f" 2) [Sample.step "g" 2, Sample.step "h" 3])
        none).lower (some ⟨"1"⟩) s = .ok () u ∧
      (do
        (Shape.mutationBlock (Shape.chain (Shape.path "a" 2) (Sample.step "f" 2) [Sample.step "g" 2]) none).lower
          (some ⟨"1"⟩)
        (Shape.indentedChain [Sample.step "h" 3]).lower (some ⟨"1"⟩)) s = .ok () u ∧
      (Shape.serviceBlock (Shape.service "db" none [Sample.argument 2, Sample.argument 3] ["y"] 2) none).lower
        (some ⟨"1"⟩) s = .ok () v ∧
      (Shape.serviceBlock (Shape.service "db" none [Sample.argument 2] ["y"] 2)
        (some (Shape.body [Sample.argument 3]))).lower (some ⟨"1"⟩) s = .ok () v := by
  let steps : List Step := [.append .execute 1 { service := some "db" }, .openScope ⟨"1"⟩ ["client"]]
  have hs : (Step.runAll {} steps).2.Reachable := ⟨steps, rfl⟩
  obtain ⟨u, hu⟩ : ∃ u, (Shape.mutationBlock (Shape.chain (Shape.path "a" 2) (Sample.step "f" 2)
      ([Sample.step "g" 2] ++ [Sample.step "h" 3])) none).lower (some ⟨"1"⟩) (Step.runAll {} steps).2 = .ok () u :=
    ⟨_, rfl⟩
  obtain ⟨v, hv⟩ : ∃ v, (Shape.serviceBlock (Shape.service "db" none ([Sample.argument 2] ++ [Sample.argument 3]) ["y"] 2)
      none).lower (some ⟨"1"⟩) (Step.runAll {} steps).2 = .ok () v := ⟨_, rfl⟩
  have hpieces := lower_in_pieces hs (some ⟨"1"⟩)
  exact ⟨_, u, v, hs, rfl, hu, (hpieces.1 _ _ _ _ u hu).1, hv,
    (hpieces.2 _ _ _ _ _ _ v (by simp [Sample.argument, Shape.argument]) rfl rfl hv).2⟩

/-- A path may lack its root. Then its name can be that of a handle although its root is bound to nothing, and
    the call of a handle is not continued. -/
theorem handle_not_continued :
    ∃ (s u v : Store) (d : Diagnostic), s.Reachable ∧ s.scopes.lookup? (Text.root ".x") = none ∧
      (Shape.serviceBlock (Shape.service ".x" none ([] ++ [Sample.argument 2]) [] 2) none).lower (some ⟨"1"⟩) s =
        .ok () u ∧
      (do
        (Shape.serviceBlock (Shape.service ".x" none [] [] 2) none).lower (some ⟨"1"⟩)
        [Sample.argument 2].forM (·.lower (some ⟨"1"⟩))) s = .error d v ∧
      d.code = .argumentsNoService := by
  let steps : List Step := [.append .execute 1 { service := some "db" }, .openScope ⟨"1"⟩ ["x"]]
  refine ⟨(Step.runAll {} steps).2, _, _, _, ⟨steps, rfl⟩, rfl, rfl, rfl, rfl⟩

/-! ### The line that is continued -/

section Continued

variable {p : Option Address} {s t : Store} {o : Outcome}

/-- Statements under a header that break off do so in an open body. -/
theorem Lowers.opened (h : Lowers p s o t) (hs : s.Linked) (hp : s.Has p) (hl : Laid s.lines) (ho : Open p s.lines) :
    Open (o.under p) t.lines := by
  -- Under the header itself this is what growth says; only a break inside of a body leads further in.
  have hgrown : ∀ {p : Option Address} {s t : Store} {o : Outcome}, Lowers p s o t → s.Linked → s.Has p → Laid s.lines →
      Open p s.lines → Open p t.lines := fun h hs hp hl ho =>
    ho.grows hp (h.grows hs hl.grounded hp) (h.linked hs).keyed
  induction h with
  | skip | stop | imports => exact ho
  | andThen h _ _ ih' =>
    exact ih' (h.linked hs) ((h.grows hs hl.grounded hp).has hp) (h.laid hs hp hl ho) (hgrown h hs hp hl ho)
  | continues hm => exact hgrown (.continues hm) hs hp hl ho
  | line he => exact hgrown (.line he) hs hp hl ho
  | named he hm => exact hgrown (.named he hm) hs hp hl ho
  | redeclared hn => exact hgrown (.redeclared hn) hs hp hl ho
  | header hopens => exact hgrown (.header hopens) hs hp hl ho
  | block hopens hout hbody => exact hgrown (.block hopens hout hbody) hs hp hl ho
  | loop hlast hc hparent hm hn hopens hbody => exact hgrown (.loop hlast hc hparent hm hn hopens hbody) hs hp hl ho
  | inside hopens _ _ ih =>
    exact ih ((hopens.keeps_linked hs).of_lines rfl) (hopens.has hs) (hopens.laid hs hp hl ho) (hopens.opened hs)

/-- The operands that the statement adds, and the method of the line that it can add them to. -/
inductive Tree.Adds (c : Tree) : Method → List Value → Prop
  | arguments {args : List Argument} (ht : c.tag = "arguments") (h : c.readArguments = .ok args) :
      Adds c .execute (args.map .argument)
  | chain {more : List Value} (ht : c.tag = "indented_chain") (h : c.readChain = .ok more) : Adds c .mutation more

theorem Tree.lower_adds {c : Tree} (hc : c.tag = "arguments" ∨ c.tag = "indented_chain") (hs : Keyed s.lines)
    (hrun : c.lower p s = .ok () t) :
    ∃ init l more, s.lines = init ++ [l] ∧ c.Adds l.method more ∧ t = { s with lines := init ++ [l.addArgs more] } := by
  rw [Tree.lower_eq, LowerM.statement] at hrun
  rcases hc with hc | hc <;> rw [hc] at hrun
  · change LowerM.continueArguments c s = .ok () t at hrun
    simp only [LowerM.continueArguments, LowerM.bind_eq_ok, LowerM.read_eq_ok] at hrun
    obtain ⟨args, _, ⟨hargs, rfl⟩, hlast⟩ := hrun
    obtain ⟨init, l, hl, hm, ht⟩ := (LowerM.continueLast_eq_ok hs).mp hlast
    exact ⟨init, l, _, hl, hm ▸ .arguments hc hargs, ht⟩
  · change LowerM.continueMutation c s = .ok () t at hrun
    simp only [LowerM.continueMutation, LowerM.bind_eq_ok, LowerM.read_eq_ok] at hrun
    obtain ⟨more, _, ⟨hmore, rfl⟩, hlast⟩ := hrun
    obtain ⟨init, l, hl, hm, ht⟩ := (LowerM.continueLast_eq_ok hs).mp hlast
    exact ⟨init, l, more, hl, hm ▸ .chain hc hmore, ht⟩

end Continued

/-- A statement that continues a line adds to the line that was appended last before it, and nothing else
    changes. That line is the header under which the statement is lowered, or stands in it at some depth. -/
theorem lower_continues_last {t c : Tree} {q : Option Address} {u v : Store} (hb : t.Begins c q u)
    (hc : c.tag = "arguments" ∨ c.tag = "indented_chain") (hrun : c.lower q u = .ok () v) :
    ∃ init l more, u.lines = init ++ [l] ∧ c.Adds l.method more ∧ v = { u with lines := init ++ [l.addArgs more] } ∧
      ∀ a, q = some a → Within u.lines l.address a := by
  have hl := hb.lowers
  obtain ⟨init, l, more, hlines, hadds, hv⟩ := Tree.lower_adds hc (hl.linked Store.linked_empty).keyed hrun
  refine ⟨init, l, more, hlines, hadds, hv, fun a ha => ?_⟩
  have hopen := hl.opened Store.linked_empty (Store.has_none _) Laid.nil (Open.none _)
  obtain ⟨l', hlast, hw⟩ := hopen.last a ha
  rw [hlines, List.getLast?_concat] at hlast
  exact Option.some.inj hlast ▸ hw

/-- `db` in the body of `if`, and then an argument. -/
def Sample.indented (inside after : List Tree) : Tree :=
  Shape.script (
    Shape.ifBlock (Shape.path "a" 1) (Shape.serviceBlock (Shape.service "db" none [] [] 2) none :: inside) 1 [] :: after)

/-- An argument in the body of `if` continues the call before it, which stands in the body. -/
theorem lower_continues_last_indented :
    ∃ c u v, (Sample.indented [Sample.argument 3] []).Begins c (some ⟨"1"⟩) u ∧ c.tag = "arguments" ∧
      c.lower (some ⟨"1"⟩) u = .ok () v ∧
      ∃ init l more, u.lines = init ++ [l] ∧ c.Adds l.method more ∧ v = { u with lines := init ++ [l.addArgs more] } ∧
        ∀ a, some ⟨"1"⟩ = some a → Within u.lines l.address a := by
  obtain ⟨c, u, v, hb, hc, hrun⟩ : ∃ c u v, (Sample.indented [Sample.argument 3] []).Begins c (some ⟨"1"⟩) u ∧
      c.tag = "arguments" ∧ c.lower (some ⟨"1"⟩) u = .ok () v := by
    apply Exists.intro
    apply Exists.intro
    apply Exists.intro
    refine ⟨⟨fun c _ _ => c.tag == "arguments", fun report => ?_⟩, ?_, ?_⟩ <;> rfl
  exact ⟨c, u, v, hb, hc, hrun, lower_continues_last hb (Or.inl hc) hrun⟩

/-- An argument after the body of `if` continues the call at the end of that body as well. -/
theorem continues_into_body :
    ∃ c u v l, (Sample.indented [] [Sample.argument 3]).Begins c none u ∧ c.tag = "arguments" ∧
      c.lower none u = .ok () v ∧ u.lines.getLast? = some l ∧ l.parent = some ⟨"1"⟩ ∧ l.args = some [] ∧
      (v.lines.getLast?.bind (·.args)).map (·.length) = some 1 := by
  apply Exists.intro
  apply Exists.intro
  apply Exists.intro
  apply Exists.intro
  refine ⟨⟨fun c _ _ => c.tag == "arguments", fun report => ?_⟩, ?_, ?_, ?_, ?_, ?_, ?_⟩ <;> rfl

end Flowline
