import Flowline.Lowering.Block
import Flowline.Proofs.Grammar

/-! Reading grammatical trees. On a node of the kind that it is meant for, in a tree that follows the grammar,
    every reader of values succeeds. The readers call each other on the parts of a node, so the statement is
    about all of them at once: `Tree.Reads t` says that whichever of them is meant for `t` succeeds on it, and
    a node reads if its parts do. -/

namespace Flowline

/-! ### Answers -/

def Succeeds {ε α : Type} (x : Except ε α) : Prop :=
  ∃ a, x = .ok a

section Succeeds

variable {ε α β : Type} {x : Except ε α}

theorem succeeds_pure (a : α) : Succeeds (pure a : Except ε α) :=
  ⟨a, rfl⟩

theorem Succeeds.bind {f : α → Except ε β} (hx : Succeeds x) (hf : ∀ a, x = .ok a → Succeeds (f a)) :
    Succeeds (x >>= f) := by
  obtain ⟨a, ha⟩ := hx
  obtain ⟨b, hb⟩ := hf a ha
  exact ⟨b, by rw [ha]; exact hb⟩

theorem Succeeds.map {f : α → β} (hx : Succeeds x) : Succeeds (do return f (← x)) :=
  hx.bind fun _ _ => succeeds_pure _

theorem succeeds_bind_of_ok {x : Except Missing α} {a : α} {f : α → Except Malformed β} (hx : x = .ok a)
    (hf : Succeeds (f a)) : Succeeds (liftM x >>= f) := by
  rw [hx]
  exact hf

theorem Succeeds.lift_bind {x : Except Missing α} {f : α → Except Malformed β} (hx : Succeeds x)
    (hf : ∀ a, x = .ok a → Succeeds (f a)) : Succeeds (liftM x >>= f) := by
  obtain ⟨a, rfl⟩ := hx
  exact hf a rfl

theorem succeeds_mapM {f : α → Except ε β} {xs : List α} (h : ∀ a ∈ xs, Succeeds (f a)) : Succeeds (xs.mapM f) := by
  induction xs with
  | nil => exact succeeds_pure _
  | cons a xs ih =>
    rw [List.mapM_cons]
    refine (h a (by simp)).bind fun _ _ => (ih fun b hb => h b (List.mem_cons_of_mem _ hb)).bind fun _ _ => ?_
    exact succeeds_pure _

end Succeeds

namespace Tree

/-! ### Rows of children -/

/-- A row of children is read from left to right: `walk` reads the children that `read?` reads and skips the
    others. -/
structure Walks {α : Type} (walk : List Child → Except Malformed (List α))
    (read? : Child → Option (Except Malformed α)) : Prop where
  nil : walk [] = .ok []
  skip (c : Child) (rest : List Child) (h : read? c = none) : walk (c :: rest) = walk rest
  read (c : Child) (rest : List Child) (x : Except Malformed α) (h : read? c = some x) :
    walk (c :: rest) = do return (← x) :: (← walk rest)

theorem Walks.succeeds {α : Type} {walk : List Child → Except Malformed (List α)}
    {read? : Child → Option (Except Malformed α)} (hw : Walks walk read?) {cs : List Child}
    (h : ∀ c ∈ cs, ∀ x, read? c = some x → Succeeds x) :
    ∃ as, walk cs = .ok as ∧ as.length = (cs.filterMap read?).length := by
  induction cs with
  | nil => exact ⟨[], hw.nil, rfl⟩
  | cons c rest ih =>
    obtain ⟨as, has, hlength⟩ := ih fun d hd => h d (List.mem_cons_of_mem _ hd)
    cases hc : read? c with
    | none => exact ⟨as, (hw.skip c rest hc).trans has, by simpa [hc] using hlength⟩
    | some x =>
      obtain ⟨a, rfl⟩ := h c (by simp) x hc
      refine ⟨a :: as, ?_, by simpa [hc] using hlength⟩
      rw [hw.read c rest _ hc, has]
      rfl

def segmentOf? : Child → Option (Except Malformed Segment)
  | .token name => some (.ok (.name name.value))
  | .tree t => some t.readSegment

theorem segmentsOf_walks : Walks segmentsOf segmentOf? where
  nil := by rw [segmentsOf]
  skip c rest h := by cases c <;> cases h
  read c rest x h := by
    cases c <;> cases h <;> rw [segmentsOf]
    rfl

/-- Reads the trees with some tags, and no tokens. -/
def readWhere {α : Type} (keep : String → Bool) (read : Tree → Except Malformed α) :
    Child → Option (Except Malformed α)
  | .token _ => none
  | .tree t => if keep t.tag then some (read t) else none

theorem walks_readWhere {α : Type} {walk : List Child → Except Malformed (List α)} {keep : String → Bool}
    {read : Tree → Except Malformed α} (hnil : walk [] = .ok [])
    (htoken : ∀ token rest, walk (.token token :: rest) = walk rest)
    (htree : ∀ t rest, walk (.tree t :: rest) =
      if keep t.tag then (do return (← read t) :: (← walk rest)) else walk rest) :
    Walks walk (readWhere keep read) where
  nil := hnil
  skip c rest h := by
    cases c with
    | token => exact htoken _ _
    | tree t =>
      have ht : keep t.tag = false := by simpa [readWhere] using h
      rw [htree, ht]
      rfl
  read c rest x h := by
    cases c with
    | token => cases h
    | tree t =>
      obtain ⟨ht, rfl⟩ : keep t.tag = true ∧ read t = x := by simpa [readWhere] using h
      rw [htree, ht]
      rfl

theorem itemsOf_walks : Walks itemsOf (readWhere (fun _ => true) fun t => readChild (.tree t)) :=
  walks_readWhere (by rw [itemsOf]) (fun _ _ => by rw [itemsOf]) fun _ _ => by rw [itemsOf, if_pos rfl]

theorem entriesOf_walks : Walks entriesOf (readWhere (· == "key_value") readEntry) :=
  walks_readWhere (by rw [entriesOf]) (fun _ _ => by rw [entriesOf]) fun _ _ => by simp only [entriesOf, beq_iff_eq]

theorem operandsOf_walks : Walks operandsOf (readWhere (· != "operator") fun t => readChild (.tree t)) :=
  walks_readWhere (by rw [operandsOf]) (fun _ _ => by rw [operandsOf]) fun t rest => by
    rw [operandsOf]
    by_cases ht : t.tag = "operator" <;> simp [ht]

theorem argumentsOf_walks : Walks argumentsOf (readWhere (· == "arguments") readArgument) :=
  walks_readWhere (by rw [argumentsOf]) (fun _ _ => by rw [argumentsOf]) fun _ _ => by
    simp only [argumentsOf, beq_iff_eq]

/-- A row is read if each of its trees that matter is. -/
theorem Walks.succeeds_where {α : Type} {walk : List Child → Except Malformed (List α)} {keep : String → Bool}
    {read : Tree → Except Malformed α} (hw : Walks walk (readWhere keep read)) {t : Tree}
    (h : ∀ u ∈ t.subtrees, keep u.tag = true → Succeeds (read u)) :
    ∃ as, walk t.children = .ok as ∧ as.length = (t.subtrees.filter (keep ·.tag)).length := by
  have hreads : ∀ c ∈ t.children, ∀ x, readWhere keep read c = some x → Succeeds x := by
    intro c hc x hx
    cases c with
    | token => cases hx
    | tree u =>
      obtain ⟨hu, rfl⟩ : keep u.tag = true ∧ read u = x := by simpa [readWhere] using hx
      exact h u (mem_subtrees.mpr hc) hu
  obtain ⟨as, has, hlength⟩ := hw.succeeds hreads
  refine ⟨as, has, hlength.trans ?_⟩
  rw [subtrees]
  induction t.children with
  | nil => rfl
  | cons c rest ih =>
    cases c with
    | token => simpa [readWhere, List.filterMap_cons, Child.tree?] using ih
    | tree u => cases hu : keep u.tag <;> simpa [readWhere, Child.tree?, hu] using ih

theorem fragmentArguments_succeeds {cs : List Child}
    (h : ∀ u, .tree u ∈ cs → u.tag = "service_fragment" → Succeeds u.readChildArguments) :
    Succeeds (fragmentArguments cs) := by
  induction cs with
  | nil => exact ⟨[], by rw [fragmentArguments]⟩
  | cons c rest ih =>
    have hrest := ih fun u hu => h u (List.mem_cons_of_mem _ hu)
    cases c with
    | token => rwa [fragmentArguments]
    | tree u =>
      rw [fragmentArguments]
      split
      · exact h u (by simp) (by assumption)
      · exact hrest

theorem lastValue?_cons (c : Child) (rest : List Child) :
    lastValue? (c :: rest) =
      match lastValue? rest with
      | some value => some value
      | none => c.tree?.map fun t => readChild (.tree t) := by
  cases c <;> rfl

theorem lastValue?_eq (cs : List Child) :
    lastValue? cs = (cs.filterMap Child.tree?).getLast?.map fun t => readChild (.tree t) := by
  induction cs with
  | nil => rfl
  | cons c rest ih =>
    rw [lastValue?_cons, ih, List.filterMap_cons]
    cases hlast : (rest.filterMap Child.tree?).getLast? <;>
      cases c <;> simp [Child.tree?, List.getLast?_cons, hlast]

/-! ### Readers -/

/-- Whichever reader is meant for the node succeeds on it. -/
structure Reads (t : Tree) : Prop where
  value : (∃ k ∈ Grammar.valueKinds, t.Obeys k) → Succeeds (readChild (.tree t))
  segments : t.Obeys .path → Succeeds t.readSegments
  segment : t.Obeys .pathFragment → Succeeds t.readSegment
  subscript : (∃ k ∈ [.string, .path, .inlineExpression], t.Obeys k) → Succeeds t.readSubscript
  conjuncts : t.Obeys .expression → ∃ v vs, t.readConjuncts = .ok (v :: vs)
  entry : t.Obeys .keyValue → Succeeds t.readEntry
  argument : t.Obeys .arguments → Succeeds t.readArgument
  arguments : Succeeds t.readChildArguments

/-! ### Expressions -/

theorem applyOperators_cons {operators : List String} {values : List Value} (hne : operators ≠ [])
    (hlength : values.length = operators.length + 1) : ∃ v vs, applyOperators operators values = v :: vs := by
  match operators, values with
  | [], _ => exact absurd rfl hne
  | _, [] => simp at hlength
  | _ :: _, [_] => simp at hlength
  | operator :: operators, first :: second :: rest =>
    rw [applyOperators]
    split
    · exact ⟨_, _, rfl⟩
    · exact ⟨_, _, rfl⟩

/-- The operators that stand before the further operands of an expression. -/
theorem operatorsOf_rows {rows : List (List Child)}
    (h : ∀ row ∈ rows, ∃ o u, row = [.tree o, .tree u] ∧ o.tag = "operator" ∧ u.tag ≠ "operator" ∧
      Succeeds (o.tokenAt 0)) :
    ∃ operators, operatorsOf rows.flatten = .ok operators ∧ operators.length = rows.length ∧
      ((rows.flatten.filterMap Child.tree?).filter (·.tag != "operator")).length = rows.length := by
  induction rows with
  | nil => exact ⟨[], rfl, rfl, rfl⟩
  | cons row rows ih =>
    obtain ⟨operators, hoperators, hlength, hcount⟩ := ih fun row hrow => h row (List.mem_cons_of_mem _ hrow)
    obtain ⟨o, u, rfl, ho, hu, symbol, hsymbol⟩ := h row (by simp)
    refine ⟨symbol.value :: operators, ?_, by simp [hlength], ?_⟩
    · simp only [List.flatten_cons, List.cons_append, List.nil_append, operatorsOf, if_pos ho, if_neg hu, hsymbol,
        hoperators]
      rfl
    · simpa [Child.tree?, ho, hu] using hcount

/-! ### Numbers and names of services -/

theorem readNumber_succeeds {t : Tree} (h : t.Obeys .number) : Succeeds t.readNumber := by
  have htoken : Succeeds (t.tokenAt 0) := h.first_token rfl
  refine htoken.lift_bind fun token htoken => ?_
  obtain ⟨number, hnumber⟩ := Option.isSome_iff_exists.mp (h.ruled.number rfl token (mem_tokens_of_tokenAt htoken))
  rw [hnumber]
  exact succeeds_pure _

theorem readCommand_succeeds {t : Tree} (h : t.Grammatical) : Succeeds t.readCommand := by
  unfold readCommand
  split
  · exact succeeds_pure none
  · rename_i command hcommand
    obtain ⟨fragment, hfragment, hcommand⟩ := Option.bind_eq_some_iff.mp hcommand
    have hgrammatical := (h.child? hfragment .serviceFragment rfl).grammatical
    have htoken : Succeeds (command.tokenAt 0) := (hgrammatical.child? hcommand .command rfl).first_token rfl
    exact htoken.map

theorem readCallee_succeeds {t path : Tree} (h : t.Grammatical) (hchild : t.child "path" = .ok path) (hpath : path.Obeys .path) :
    Succeeds t.readCallee := by
  have htoken : Succeeds (path.tokenAt 0) := hpath.first_token rfl
  refine succeeds_bind_of_ok hchild (htoken.lift_bind fun _ _ => ?_)
  exact (readCommand_succeeds h).lift_bind fun _ _ => succeeds_pure _

/-! ### A node whose parts read -/

section Step

variable {t : Tree} (hsub : ∀ u ∈ t.subtrees, u.Reads)

include hsub

theorem readChildArguments_succeeds (h : t.Grammatical) : Succeeds t.readChildArguments := by
  obtain ⟨arguments, harguments, -⟩ := argumentsOf_walks.succeeds_where (t := t) fun u hu htag =>
    (hsub u hu).argument ⟨beq_iff_eq.mp htag, h.subtree hu⟩
  cases t
  exact ⟨arguments, by rw [readChildArguments]; exact harguments⟩

theorem fragmentArguments_succeeds_of_subtrees : Succeeds (fragmentArguments t.children) :=
  fragmentArguments_succeeds fun u hu _ => (hsub u (mem_subtrees.mpr hu)).arguments

theorem readConjuncts_cons (h : t.Obeys .expression) : ∃ v vs, t.readConjuncts = .ok (v :: vs) := by
  have hoperand : ∀ u ∈ t.subtrees, (u.tag != "operator") = true → Succeeds (readChild (.tree u)) := by
    intro u hu hne
    obtain ⟨k, hk, hu'⟩ := h.subtree (.operator :: Grammar.valueKinds) hu rfl
    refine (hsub u hu).value ⟨k, (List.mem_cons.mp hk).resolve_left ?_, hu'⟩
    rintro rfl
    simp [hu'.tag, NodeKind.tag] at hne
  -- The children are a first operand and rows of an operator and a further operand.
  have hm := h.ruled.children
  obtain ⟨tag, children⟩ := t
  obtain rfl : tag = "expression" := h.tag
  obtain ⟨_, _, hchildren, hfirst, rows, rfl, hrows⟩ := hm
  obtain ⟨first, rfl, k, hk, hf⟩ := Pattern.nodes_iff.mp hfirst
  obtain rfl : children = .tree first :: rows.flatten := hchildren
  have hne : first.tag ≠ "operator" := NodeKind.tag_ne .operator hk hf (by decide)
  have hrow : ∀ row ∈ rows, ∃ o u, row = [.tree o, .tree u] ∧ o.tag = "operator" ∧ u.tag ≠ "operator" ∧
      Succeeds (o.tokenAt 0) := by
    intro row hrow
    obtain ⟨_, _, rfl, hleft, hright⟩ := hrows row hrow
    obtain ⟨o, rfl, ko, hko, ho⟩ := Pattern.nodes_iff.mp hleft
    obtain ⟨u, rfl, ku, hku, hu⟩ := Pattern.nodes_iff.mp hright
    obtain rfl := List.mem_singleton.mp hko
    have hmem : o ∈ subtrees ⟨"expression", .tree first :: rows.flatten⟩ :=
      mem_subtrees.mpr (List.mem_cons_of_mem _ (List.mem_flatten.mpr ⟨_, hrow, by simp⟩))
    have hoperator : o.Obeys .operator := ⟨ho, h.grammatical.subtree hmem⟩
    exact ⟨o, u, rfl, ho, NodeKind.tag_ne .operator hku hu (by decide), hoperator.first_token rfl⟩
  obtain ⟨operators, hoperators, hlength, hcount⟩ := operatorsOf_rows hrow
  -- Reading fails only if there is not one operand more than there are operators.
  have hcount : (operands ⟨"expression", .tree first :: rows.flatten⟩).length = operators.length + 1 := by
    simpa [operands, subtrees, Child.tree?, hne, hlength] using hcount
  have hread : readOperators ⟨"expression", .tree first :: rows.flatten⟩ = .ok operators := by
    rw [readOperators, operatorsOf, if_neg hne, hoperators]
    exact if_pos hcount
  rw [readConjuncts, hread]
  cases operators with
  | nil =>
    -- An operand that stands alone gives its own conjuncts.
    obtain rfl : rows = [] := List.length_eq_zero_iff.mp hlength.symm
    change ∃ v vs, loneConjuncts [.tree first] = .ok (v :: vs)
    have hmem : first ∈ subtrees ⟨"expression", [.tree first]⟩ := by simp [subtrees, Child.tree?]
    rw [loneConjuncts]
    split
    · rename_i htag
      exact (hsub first hmem).conjuncts ⟨htag, h.grammatical.subtree hmem⟩
    · obtain ⟨v, hv⟩ := hoperand first hmem (by simpa using hne)
      exact ⟨v, [], by rw [hv]; rfl⟩
  | cons operator operators =>
    obtain ⟨values, hvalues, hvlength⟩ := operandsOf_walks.succeeds_where hoperand
    obtain ⟨v, vs, hv⟩ := applyOperators_cons (List.cons_ne_nil operator operators) (hvlength.trans hcount)
    refine ⟨v, vs, ?_⟩
    change (do return applyOperators (operator :: operators) (← operandsOf (.tree first :: rows.flatten))) = _
    rw [show operandsOf (.tree first :: rows.flatten) = .ok values from hvalues, ← hv]
    rfl

theorem readSegments_succeeds (h : t.Obeys .path) : Succeeds t.readSegments := by
  have hreads : ∀ c ∈ t.children, ∀ x, segmentOf? c = some x → Succeeds x := by
    intro c hc x hx
    cases c with
    | token =>
      cases hx
      exact ⟨_, rfl⟩
    | tree u =>
      cases hx
      obtain ⟨k, hk, hu⟩ := h.subtree [.pathFragment] (mem_subtrees.mpr hc) rfl
      obtain rfl := List.mem_singleton.mp hk
      exact (hsub u (mem_subtrees.mpr hc)).segment hu
  obtain ⟨segments, hsegments, -⟩ := segmentsOf_walks.succeeds hreads
  exact ⟨segments, hsegments⟩

theorem readSegment_succeeds (h : t.Obeys .pathFragment) : Succeeds t.readSegment := by
  obtain ⟨c, hchildren, -⟩ := h.ruled.children
  have hsubscript := fun u hu => h.subtree (u := u) [.string, .path, .inlineExpression] hu rfl
  obtain ⟨tag, children⟩ := t
  obtain rfl : children = [c] := hchildren
  cases c with
  | token => exact ⟨_, rfl⟩
  | tree u =>
    have hu : u ∈ subtrees ⟨tag, [.tree u]⟩ := by simp [subtrees, Child.tree?]
    exact (hsub u hu).subscript (hsubscript u hu)

theorem readSubscript_succeeds (h : ∃ k ∈ [.string, .path, .inlineExpression], t.Obeys k) : Succeeds t.readSubscript := by
  obtain ⟨k, hk, h⟩ := h
  simp only [List.mem_cons, List.not_mem_nil, or_false] at hk
  rcases hk with rfl | rfl | rfl
  · have htoken : Succeeds (t.tokenAt 0) := h.first_token rfl
    obtain ⟨tag, children⟩ := t
    unfold readSubscript
    rw [if_pos (by exact h.tag)]
    exact htoken.lift_bind fun _ _ => succeeds_pure _
  · have hsegments := readSegments_succeeds hsub h
    obtain ⟨tag, children⟩ := t
    obtain rfl : tag = "path" := h.tag
    unfold readSubscript
    rw [if_neg (by simp), if_pos rfl]
    exact hsegments.map
  · obtain ⟨u, rest, hchildren, hu⟩ := h.first_tree Grammar.valueKinds rfl
    obtain ⟨tag, children⟩ := t
    obtain rfl : tag = "inline_expression" := h.tag
    obtain rfl : children = .tree u :: rest := hchildren
    have hvalue := (hsub u (by simp [subtrees, Child.tree?])).value hu
    unfold readSubscript
    rw [if_neg (by simp), if_neg (by simp), if_pos rfl]
    exact hvalue.map

theorem readEntry_succeeds (h : t.Obeys .keyValue) : Succeeds t.readEntry := by
  have hvalue : ∀ u ∈ t.subtrees, Succeeds (readChild (.tree u)) := fun u hu =>
    (hsub u hu).value (h.subtree Grammar.valueKinds hu rfl)
  obtain ⟨_, _, hchildren, hleft, hright⟩ := h.ruled.children
  obtain ⟨key, rfl, k, hk, hkey⟩ := Pattern.nodes_iff.mp hleft
  obtain ⟨value, rfl, -⟩ := Pattern.nodes_iff.mp hright
  obtain ⟨tag, children⟩ := t
  obtain rfl : children = [.tree key, .tree value] := hchildren
  have htag : (key.tag = "string" || key.tag = "path") = true := by
    simp only [List.mem_cons, List.not_mem_nil, or_false] at hk
    rcases hk with rfl | rfl <;> simp [hkey, NodeKind.tag]
  rw [readEntry, if_pos htag]
  refine (hvalue key (by simp [subtrees, Child.tree?])).bind fun _ _ => ?_
  exact (hvalue value (by simp [subtrees, Child.tree?])).map

theorem readArgument_succeeds (h : t.Obeys .arguments) : Succeeds t.readArgument := by
  obtain ⟨v, hv, -⟩ := h.exists_subtree Grammar.valueKinds rfl
  have hne : t.subtrees ≠ [] := List.ne_nil_of_mem hv
  have hlast := List.getLast?_eq_some_getLast hne
  have hu := List.getLast_mem hne
  have hvalue := (hsub _ hu).value (h.subtree Grammar.valueKinds hu rfl)
  obtain ⟨tag, children⟩ := t
  rw [readArgument, lastValue?_eq, show (children.filterMap Child.tree?).getLast? = _ from hlast]
  exact hvalue.map

theorem readLiteral_succeeds (h : t.Obeys .values) : Succeeds t.readLiteral := by
  have hm := h.ruled.children
  obtain ⟨tag, children⟩ := t
  rcases hm with hvalue | htoken | ⟨_, _, hchildren, hleft, hright⟩
  · obtain ⟨u, hchildren, k, hk, hu⟩ := Pattern.nodes_iff.mp hvalue
    obtain rfl : children = [.tree u] := hchildren
    have hmem : u ∈ subtrees ⟨tag, [.tree u]⟩ := by simp [subtrees, Child.tree?]
    have hsubset : [.string, .number, .boolean, .list, .objects, .types] ⊆ Grammar.valueKinds := by decide
    have hread := (hsub u hmem).value ⟨k, hsubset hk, hu, h.grammatical.subtree hmem⟩
    have hne : u.tag ≠ "path" := NodeKind.tag_ne .path hk hu (by decide)
    rwa [readLiteral, if_neg hne]
  · obtain ⟨token, hchildren, hkind⟩ := Pattern.tokens_iff.mp htoken
    obtain rfl : children = [.token token] := hchildren
    simp only [List.mem_cons, List.not_mem_nil, or_false] at hkind
    rw [readLiteral]
    rcases hkind with hkind | hkind
    · rw [if_pos hkind]
      exact ⟨_, rfl⟩
    · rw [if_neg (by simp [hkind]), if_pos hkind, segmentsOf]
      exact ⟨_, rfl⟩
  · obtain ⟨path, rfl, kp, hkp, hpath⟩ := Pattern.nodes_iff.mp hleft
    obtain ⟨fragment, rfl, kf, hkf, hfragment⟩ := Pattern.nodes_iff.mp hright
    obtain rfl := List.mem_singleton.mp hkp
    obtain rfl := List.mem_singleton.mp hkf
    obtain rfl : children = [.tree path, .tree fragment] := hchildren
    replace hpath : path.tag = "path" := hpath
    replace hfragment : fragment.tag = "service_fragment" := hfragment
    have hpathmem : path ∈ subtrees ⟨tag, [.tree path, .tree fragment]⟩ := by simp [subtrees, Child.tree?]
    have hfragmentmem : fragment ∈ subtrees ⟨tag, [.tree path, .tree fragment]⟩ := by simp [subtrees, Child.tree?]
    have hchild : child ⟨tag, [.tree path, .tree fragment]⟩ "path" = .ok path := by
      simp [child, child?, subtrees, Child.tree?, hpath]
    have hsome : (child? ⟨tag, [.tree path, .tree fragment]⟩ "service_fragment").isSome = true := by
      simp [child?, subtrees, Child.tree?, hpath, hfragment]
    rw [readLiteral, if_pos hpath, if_pos hsome, fragmentArguments, if_pos hfragment]
    refine (readCallee_succeeds h.grammatical hchild ⟨hpath, h.grammatical.subtree hpathmem⟩).bind fun _ _ => ?_
    exact (hsub fragment hfragmentmem).arguments.map

theorem readCall_succeeds (h : t.Obeys .service) : Succeeds t.readCall := by
  obtain ⟨path, hchild, -, hpath⟩ := h.child .path rfl
  have hcallee := readCallee_succeeds h.grammatical hchild hpath
  have harguments := fragmentArguments_succeeds_of_subtrees hsub
  cases t
  rw [readCall]
  exact hcallee.bind fun _ _ => harguments.map

theorem readChild_succeeds (h : ∃ k ∈ Grammar.valueKinds, t.Obeys k) : Succeeds (readChild (.tree t)) := by
  obtain ⟨k, hk, h⟩ := h
  simp only [Grammar.valueKinds, List.mem_cons, List.not_mem_nil, or_false] at hk
  have ht := h.tag
  rw [readChild]
  rcases hk with rfl | rfl | rfl | rfl | rfl | rfl | rfl | rfl | rfl | rfl | rfl <;>
    simp only [ht, NodeKind.tag, ValueKind.ofTag?]
  · exact readLiteral_succeeds hsub h
  · obtain ⟨u, rest, hchildren, hu⟩ := h.first_tree Grammar.valueKinds rfl
    obtain ⟨tag, children⟩ := t
    obtain rfl : children = .tree u :: rest := hchildren
    rw [readEntity]
    exact (hsub u (by simp [subtrees, Child.tree?])).value hu
  · have hsegments := readSegments_succeeds hsub h
    cases t
    rw [readPath]
    exact hsegments.map
  · obtain ⟨v, vs, hconjuncts⟩ := readConjuncts_cons hsub h
    rw [hconjuncts]
    exact ⟨_, rfl⟩
  · have htoken : Succeeds (t.tokenAt 0) := h.first_token rfl
    exact htoken.lift_bind fun _ _ => succeeds_pure _
  · exact readNumber_succeeds h
  · have htoken : Succeeds (t.tokenAt 0) := h.first_token rfl
    exact htoken.lift_bind fun _ _ => succeeds_pure _
  · obtain ⟨items, hitems, -⟩ := itemsOf_walks.succeeds_where (t := t) fun u hu _ =>
      (hsub u hu).value (h.subtree Grammar.valueKinds hu rfl)
    cases t
    rw [readList, show itemsOf _ = _ from hitems]
    exact ⟨_, rfl⟩
  · obtain ⟨entries, hentries, -⟩ := entriesOf_walks.succeeds_where (t := t) fun u hu htag =>
      (hsub u hu).entry ⟨beq_iff_eq.mp htag, h.grammatical.subtree hu⟩
    cases t
    rw [readDict, show entriesOf _ = _ from hentries]
    exact ⟨_, rfl⟩
  · have htoken : Succeeds (t.tokenAt 0) := h.first_token rfl
    exact htoken.lift_bind fun _ _ => succeeds_pure _
  · exact readCall_succeeds hsub h

end Step

/-- In a grammatical tree every reader succeeds on the nodes that it is meant for. -/
theorem Grammatical.reads {t : Tree} (h : t.Grammatical) : t.Reads := by
  induction t using subtreeInduction with
  | step t ih =>
    -- A reader goes on to the parts of its node alone, by whichever reader is meant for them.
    have hsub : ∀ u ∈ t.subtrees, u.Reads := fun u hu => ih u hu (h.subtree hu)
    exact {
      value := readChild_succeeds hsub
      segments := readSegments_succeeds hsub
      segment := readSegment_succeeds hsub
      subscript := readSubscript_succeeds hsub
      conjuncts := readConjuncts_cons hsub
      entry := readEntry_succeeds hsub
      argument := readArgument_succeeds hsub
      arguments := readChildArguments_succeeds hsub h }

end Tree

end Flowline
