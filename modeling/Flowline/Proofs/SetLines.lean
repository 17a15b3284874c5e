import Flowline.Proofs.Continuation
import Flowline.Proofs.Expressions

/-! The lines that assignments make. An expression that comes down to one value or path makes a `set` line, and any
    other an `expression` line. The two are told apart by looking at the tree, before it is read; what is read then
    agrees: one value without an operator, or applications of operators alone. -/

namespace Flowline

/-! ### What is read without operators -/

/-- Whether the value is the application of an operator. -/
def Value.isApplication : Value → Bool
  | .expression .. => true
  | _ => false

/-- The tags of the nodes that are read as whatever they wrap. -/
def Tree.wrapperTags : List String :=
  ["values", "entity", "expression"]

theorem ValueKind.mem_wrapperTags {tag : String} {k : ValueKind} (h : ofTag? tag = some k)
    (hk : k = .literal ∨ k = .entity ∨ k = .expression) : tag ∈ Tree.wrapperTags := by
  unfold ofTag? at h
  split at h <;> cases h <;> simp [Tree.wrapperTags] at hk ⊢

namespace Tree

variable {t u : Tree} {v : Value} {vs : List Value}

theorem bind_not_application {α : Type} {x : Except Malformed α} {f : α → Value} (hf : ∀ a, (f a).isApplication = false)
    (h : (do return f (← x)) = .ok v) : v.isApplication = false := by
  obtain ⟨a, -, h⟩ := except_bind_eq_ok.mp h
  cases h
  exact hf a

theorem readNumber_not_application (h : t.readNumber = .ok v) : v.isApplication = false := by
  obtain ⟨token, -, h⟩ := except_bind_eq_ok.mp h
  split at h <;> cases h
  rfl

theorem readPath_not_application (h : t.readPath = .ok v) : v.isApplication = false := by
  cases t
  exact bind_not_application (fun _ => rfl) h

theorem readCall_not_application (h : t.readCall = .ok v) : v.isApplication = false := by
  cases t
  obtain ⟨callee, -, h⟩ := except_bind_eq_ok.mp h
  exact bind_not_application (fun _ => rfl) h

/-- A node that wraps nothing is not read as the application of an operator. -/
theorem readValue_not_application (ht : t.tag ∉ wrapperTags) (h : t.readValue = .ok v) : v.isApplication = false := by
  obtain ⟨tag, children⟩ := t
  rw [readValue, readChild] at h
  cases hk : ValueKind.ofTag? tag with
  | none => simp [hk] at h
  | some k =>
    simp only [hk] at h
    cases k with
    | literal => exact absurd (ValueKind.mem_wrapperTags hk (by simp)) ht
    | entity => exact absurd (ValueKind.mem_wrapperTags hk (by simp)) ht
    | expression => exact absurd (ValueKind.mem_wrapperTags hk (by simp)) ht
    | path => exact readPath_not_application h
    | string => exact bind_not_application (fun _ => rfl) h
    | number => exact readNumber_not_application h
    | boolean => exact bind_not_application (fun _ => rfl) h
    | list => exact bind_not_application (fun _ => rfl) h
    | dict => exact bind_not_application (fun _ => rfl) h
    | type => exact bind_not_application (fun _ => rfl) h
    | service => exact readCall_not_application h

/-- What a value holds is not an application of an operator, unless it wraps one. -/
theorem readLiteral_not_application (ht : ∀ item, t.treeAt? 0 = some item → item.tag ∉ wrapperTags)
    (h : t.readLiteral = .ok v) : v.isApplication = false := by
  obtain ⟨tag, children⟩ := t
  match children with
  | [] =>
    rw [readLiteral] at h
    cases h
  | .token token :: rest =>
    rw [readLiteral] at h
    split at h
    · cases h
      rfl
    · split at h
      · exact bind_not_application (fun _ => rfl) h
      · cases h
  | .tree item :: rest =>
    rw [readLiteral] at h
    split at h
    · split at h
      · obtain ⟨callee, -, h⟩ := except_bind_eq_ok.mp h
        exact bind_not_application (fun _ => rfl) h
      · exact readPath_not_application h
    · exact readValue_not_application (ht item rfl) h

/-! ### Expressions of values, paths and expressions -/

/-- The node may be an operand: a value, a path or an expression. A value does not wrap another value or an
    expression. -/
structure FitsOperand (t : Tree) : Prop where
  tag : t.tag ∈ ["values", "path", "expression"]
  value : t.tag = "values" → ∀ item, t.treeAt? 0 = some item → item.tag ∉ wrapperTags

/-- All operands of the expression may be operands, and so may those of the expressions among them. -/
def Regular (t : Tree) : Prop :=
  ∀ u, t.Visits u → ∀ operand ∈ u.operands, operand.FitsOperand

theorem Regular.operand (h : t.Regular) (hu : u ∈ t.operands) : u.FitsOperand :=
  h t (visits_iff.mpr (Or.inl rfl)) u hu

theorem Regular.nested (h : t.Regular) (hu : t.Nests u) : u.Regular :=
  fun w hw => h w (visits_iff.mpr (Or.inr ⟨u, hu, hw⟩))

theorem regular_iff :
    t.Regular ↔ ∀ u ∈ t.operands, u.FitsOperand ∧ (u.tag = "expression" → u.Regular) := by
  constructor
  · exact fun h u hu => ⟨h.operand hu, fun hut => h.nested ⟨hu, hut⟩⟩
  · intro h w hw operand hmem
    rcases visits_iff.mp hw with rfl | ⟨u, hu, hw⟩
    · exact (h operand hmem).1
    · exact (h u hu.1).2 hu.2 w hw operand hmem

theorem Obeys.fitsOperand {k : NodeKind} (h : t.Obeys k) (hk : k ∈ [.values, .path, .expression]) : t.FitsOperand where
  tag := by
    simp only [List.mem_cons, List.not_mem_nil, or_false] at hk
    rcases hk with rfl | rfl | rfl <;> simp [h.tag, NodeKind.tag]
  value htag item hitem := by
    have hvalues : t.Obeys .values := ⟨htag, h.grammatical⟩
    obtain ⟨c, hc, hcitem⟩ := Option.bind_eq_some_iff.mp hitem
    have hmem : item ∈ t.subtrees := List.mem_filterMap.mpr ⟨c, List.mem_of_getElem? hc, hcitem⟩
    obtain ⟨k, hk, hkind⟩ := hvalues.subtree
      [.string, .number, .boolean, .list, .objects, .types, .path, .serviceFragment] hmem rfl
    intro hwrapper
    have hwrapper : item.tag ∈ [NodeKind.values, .entity, .expression].map NodeKind.tag := hwrapper
    obtain ⟨k', hk', htag'⟩ := List.mem_map.mp hwrapper
    have hdisjoint : ∀ k' ∈ [NodeKind.values, .entity, .expression],
        k' ∉ [NodeKind.string, .number, .boolean, .list, .objects, .types, .path, .serviceFragment] := by decide
    exact NodeKind.tag_ne k' hk hkind.tag (hdisjoint k' hk') htag'.symm

/-- All expressions that follow the grammar are regular. -/
theorem Obeys.regular (h : t.Obeys .expression) : t.Regular := by
  induction t using subtreeInduction with
  | step t ih =>
    refine regular_iff.mpr fun u hu => ?_
    -- An operand is any subtree but an operator, which the rule allows as well.
    obtain ⟨hmem, hne⟩ := List.mem_filter.mp hu
    obtain ⟨k, hk, hkind⟩ := h.subtree [.operator, .values, .path, .expression] hmem rfl
    have hoperand : k ∈ [.values, .path, .expression] := by
      refine (List.mem_cons.mp hk).resolve_left ?_
      rintro rfl
      simp [hkind.tag, NodeKind.tag] at hne
    exact ⟨hkind.fitsOperand hoperand, fun htag => ih u hmem ⟨htag, hkind.grammatical⟩⟩

theorem FitsOperand.not_application (h : u.FitsOperand) (hu : u.tag ≠ "expression") (hv : u.readValue = .ok v) :
    v.isApplication = false := by
  by_cases hvalues : u.tag = "values"
  · refine readLiteral_not_application (h.value hvalues) (Eq.trans ?_ hv)
    rw [readValue, readChild, hvalues]
    rfl
  · have hpath : u.tag = "path" := by simpa [hvalues, hu] using h.tag
    exact readValue_not_application (by simp [hpath, wrapperTags]) hv

/-! ### Expressions without operators -/

/-- The operand that the expression wraps, through any number of expressions. -/
def innermost : Tree → Tree
  | ⟨_, [.tree ⟨tag, children⟩]⟩ => if tag = "expression" then innermost ⟨tag, children⟩ else ⟨tag, children⟩
  | t => t

theorem innermost_eq (h : t.children = [.tree u]) : t.innermost = if u.tag = "expression" then u.innermost else u := by
  obtain ⟨tag, children⟩ := t
  obtain ⟨tag', children'⟩ := u
  cases h
  rw [innermost]

theorem isLoneOperand_eq (h : t.children = [.tree u]) :
    t.isLoneOperand = (u.tag == "values" || u.tag == "path" || (u.tag == "expression" && u.isLoneOperand)) := by
  obtain ⟨tag, children⟩ := t
  obtain ⟨tag', children'⟩ := u
  cases h
  rw [isLoneOperand]

theorem children_of_isLoneOperand (h : t.isLoneOperand = true) : ∃ u, t.children = [.tree u] := by
  unfold isLoneOperand at h
  split at h
  · exact ⟨_, rfl⟩
  · cases h

theorem Operated.not_isLoneOperand {symbols : List String} (h : t.Operated symbols) (hne : symbols ≠ []) :
    t.isLoneOperand = false := by
  rw [Bool.eq_false_iff]
  intro hlone
  obtain ⟨u, hu⟩ := children_of_isLoneOperand hlone
  have hlength : t.operands.length ≤ 1 := by
    rw [operands, subtrees, hu]
    exact List.length_filter_le _ _
  have hcount := h.counts
  have hpos := List.length_pos_iff.mpr hne
  omega

theorem foldl_binary_isApplication (steps : List (String × Value)) (left right : Value) (symbol : String) :
    (steps.foldl (fun left step => Value.binary step.1 left step.2) (.binary symbol left right)).isApplication =
      true := by
  induction steps generalizing left right symbol with
  | nil => rfl
  | cons step steps ih => exact ih _ _ _

theorem adjacent_isApplication (steps : List (String × Value)) (first : Value) :
    ∀ v ∈ adjacent first steps, v.isApplication = true := by
  induction steps generalizing first with
  | nil => nofun
  | cons step steps ih => exact List.forall_mem_cons.mpr ⟨rfl, ih step.2⟩

/-- Operators that are applied to their operands leave applications only. -/
theorem applyOperators_isApplication {symbols : List String} {values : List Value} (hne : symbols ≠ [])
    (hlength : values.length = symbols.length + 1) : ∀ v ∈ applyOperators symbols values, v.isApplication = true := by
  match symbols, values with
  | symbol :: symbols, first :: second :: rest =>
    rw [applyOperators]
    split
    · exact adjacent_isApplication _ first
    · exact List.forall_mem_singleton.mpr (foldl_binary_isApplication _ first second symbol)
  | symbol :: symbols, [first] => simp at hlength

/-- What is read from an expression agrees with what the tree looks like. -/
theorem Regular.readConjuncts (hr : t.Regular) (h : t.readConjuncts = .ok vs) :
    (t.isLoneOperand = true ∧ ∃ v, t.innermost.readValue = .ok v ∧ vs = [v] ∧ v.isApplication = false) ∨
      (t.isLoneOperand = false ∧ ∀ v ∈ vs, v.isApplication = true) := by
  induction t using subtreeInduction generalizing vs with
  | step t ih =>
    rcases readConjuncts_eq_ok.mp h with ⟨u, hoperated, hu, h⟩ | ⟨symbols, values, hne, hoperated, hvalues, rfl⟩
    · have hmem : u ∈ t.operands := hu ▸ List.mem_singleton_self u
      have hchildren : t.children = [.tree u] := by
        rw [children_eq_of_operators hoperated.operators_nil, hu, List.map_singleton]
      -- Both recursions go through a node with one operand: the expression is classified as its operand is.
      rw [isLoneOperand_eq hchildren, innermost_eq hchildren]
      rw [readAlone] at h
      by_cases hut : u.tag = "expression"
      · rw [if_pos hut] at h
        simpa [hut] using ih u (mem_subtrees_of_mem_operands hmem) (hr.nested ⟨hmem, hut⟩) h
      · rw [if_neg hut] at h
        obtain ⟨v, hv, h⟩ := except_bind_eq_ok.mp h
        cases h
        have hfits := hr.operand hmem
        refine Or.inl ⟨?_, v, by rwa [if_neg hut], rfl, hfits.not_application hut hv⟩
        simpa [hut] using hfits.tag
    · refine Or.inr ⟨hoperated.not_isLoneOperand hne, applyOperators_isApplication hne ?_⟩
      rw [← hvalues.length_eq, hoperated.counts]

end Tree

/-! ### Assignments -/

/-- The store after an operand is computed on a line and the line is named for the target. -/
def Store.assigned (s : Store) (m : Method) (ln : UInt32) (args : List Value) (parent : Option Address)
    (path : List Segment) : Store :=
  (s.append m ln { args := some args, parent }).2.nameLast path

/-- `t` assigns an operand to a target. -/
structure Tree.Assigns (t operand : Tree) : Prop where
  tag : t.tag = "assignment"
  value : ∃ fragment, t.child "assignment_fragment" = .ok fragment ∧ fragment.innerOperand = .ok operand

theorem Shape.assigns_assignment (target : String) (value : Tree) (line : UInt32) :
    (Shape.assignment target value line).Assigns value := by
  obtain ⟨rest, hpath⟩ := Shape.path_eq target line
  refine ⟨rfl, Shape.wrap "assignment_fragment" [Shape.base value], ?_, rfl⟩
  rw [Shape.assignment, hpath]
  rfl

section Assignments

variable {s u : Store} {p : Option Address} {t operand : Tree}

theorem Store.assigned_lines (s : Store) (m : Method) (ln : UInt32) (args : List Value) (parent : Option Address)
    (path : List Segment) : (s.assigned m ln args parent path).lines =
      s.linkedTo parent (s.fresh ln) ++ [{ s.newLine m ln { args := some args, parent } with name := some path }] := by
  simp only [assigned, nameLast, append_lines, Line.updateLast_concat]

namespace LowerM

theorem ensured_eq_ok {α : Type} {x : Except Diagnostic α} {a : α} :
    (liftM x : LowerM Store α) s = .ok a u ↔ x = .ok a ∧ u = s := by
  cases x with
  | ok b =>
    show EStateM.Result.ok b s = .ok a u ↔ _
    simp [eq_comm]
  | error e =>
    show EStateM.Result.error _ s = .ok a u ↔ _
    simp

theorem operandLine_expression_eq_ok {h : Address} (ht : operand.tag = "expression") :
    operandLine operand p s = .ok h u ↔
      ∃ vs ln, operand.readConjuncts = .ok vs ∧ operand.line = .ok ln ∧ h = s.fresh ln ∧
        u = (s.append (if operand.isLoneOperand then .set_ else .expression) ln
          { args := some vs, parent := p }).2 := by
  have hkind : OperandKind.ofTag? operand.tag = some .expression := by
    rw [ht]
    rfl
  simp only [operandLine, hkind, bind_eq_ok, read_eq_ok, lookUp_eq_ok, append_eq_ok]
  constructor
  · rintro ⟨vs, _, ⟨hvs, rfl⟩, ln, _, ⟨hln, rfl⟩, hh, hu⟩
    exact ⟨vs, ln, hvs, hln, hh, hu⟩
  · rintro ⟨vs, ln, hvs, hln, hh, hu⟩
    exact ⟨vs, s, ⟨hvs, rfl⟩, ln, s, ⟨hln, rfl⟩, hh, hu⟩

theorem lowerAssignment_eq_ok : lowerAssignment t p s = .ok () u ↔
    ∃ target path fragment operand h v, t.child "path" = .ok target ∧ target.checkNames = .ok () ∧
      target.readSegments = .ok path ∧ t.child "assignment_fragment" = .ok fragment ∧
      fragment.innerOperand = .ok operand ∧ operandLine operand p s = .ok h v ∧ u = v.nameLast path := by
  have hname : ∀ {v : Store} {path : List Segment},
      (modify (LineStore.nameLast · path) : LowerM Store Unit) v = .ok () u ↔ u = v.nameLast path := by
    intro v path
    show EStateM.Result.ok () (v.nameLast path) = .ok () u ↔ _
    simp [eq_comm]
  simp only [lowerAssignment, bind_eq_ok, read_eq_ok, lookUp_eq_ok, ensured_eq_ok, hname]
  constructor
  · rintro ⟨target, _, ⟨htarget, rfl⟩, _, _, ⟨hchecked, rfl⟩, path, _, ⟨hpath, rfl⟩, fragment, _, ⟨hfragment, rfl⟩,
      operand, _, ⟨hoperand, rfl⟩, h, v, hline, hu⟩
    exact ⟨target, path, fragment, operand, h, v, htarget, hchecked, hpath, hfragment, hoperand, hline, hu⟩
  · rintro ⟨target, path, fragment, operand, h, v, htarget, hchecked, hpath, hfragment, hoperand, hline, hu⟩
    exact ⟨target, s, ⟨htarget, rfl⟩, (), s, ⟨hchecked, rfl⟩, path, s, ⟨hpath, rfl⟩, fragment, s, ⟨hfragment, rfl⟩,
      operand, s, ⟨hoperand, rfl⟩, h, v, hline, hu⟩

end LowerM

theorem Tree.lower_assignment_eq (ht : t.tag = "assignment") :
    (t.lower p : LowerM Store Unit) = LowerM.lowerAssignment t p := by
  rw [Tree.lower_eq, LowerM.statement, ht]
  rfl

/-- An expression is assigned if the target may be assigned to and the expression has a value and a place. -/
theorem Tree.Assigns.lower_eq_ok (ha : t.Assigns operand) (ht : operand.tag = "expression") : t.lower p s = .ok () u ↔
    ∃ target path vs ln, t.child "path" = .ok target ∧ target.checkNames = .ok () ∧ target.readSegments = .ok path ∧
      operand.readConjuncts = .ok vs ∧ operand.line = .ok ln ∧
      u = s.assigned (if operand.isLoneOperand then .set_ else .expression) ln vs p path := by
  obtain ⟨fragment, hfragment, hoperand⟩ := ha.value
  rw [Tree.lower_assignment_eq ha.tag, LowerM.lowerAssignment_eq_ok]
  constructor
  · rintro ⟨target, path, fragment', operand', h, v, htarget, hchecked, hpath, hfragment', hoperand', hline, rfl⟩
    cases hfragment.symm.trans hfragment'
    cases hoperand.symm.trans hoperand'
    obtain ⟨vs, ln, hvs, hln, -, rfl⟩ := (LowerM.operandLine_expression_eq_ok ht).mp hline
    exact ⟨target, path, vs, ln, htarget, hchecked, hpath, hvs, hln, rfl⟩
  · rintro ⟨target, path, vs, ln, htarget, hchecked, hpath, hvs, hln, rfl⟩
    exact ⟨target, path, fragment, operand, s.fresh ln, _, htarget, hchecked, hpath, hfragment, hoperand,
      (LowerM.operandLine_expression_eq_ok ht).mpr ⟨vs, ln, hvs, hln, rfl, rfl⟩, rfl⟩

end Assignments

/-- An expression looks like one value or path exactly if one value without an operator is read, which is that of
    the operand it wraps; else only applications of operators are read. So an assigned expression makes a `set` line
    with one such value, or an `expression` line with applications only. -/
theorem set_lines_carry_plain_values {t : Tree} (ht : t.tag = "expression") (hr : t.Regular) {vs : List Value}
    (h : t.readConjuncts = .ok vs) :
    (t.isLoneOperand = true ↔ ∃ v, vs = [v] ∧ v.isApplication = false) ∧
      (t.isLoneOperand = true → ∃ v, t.innermost.readValue = .ok v ∧ vs = [v]) ∧
      (t.isLoneOperand = false → ∀ v ∈ vs, v.isApplication = true) ∧
      ∀ (a : Tree) (p : Option Address) (s u : Store), a.Assigns t → a.lower p s = .ok () u →
        ∃ (ln : UInt32) (l : Line), u.lines = s.linkedTo p (s.fresh ln) ++ [l] ∧ l.args = some vs ∧
          (l.method = .set_ ∧ (∃ v, vs = [v] ∧ v.isApplication = false) ∨
            l.method = .expression ∧ ∀ v ∈ vs, v.isApplication = true) := by
  have hlast : ∀ (a : Tree) (p : Option Address) (s u : Store), a.Assigns t → a.lower p s = .ok () u →
      ∃ (ln : UInt32) (l : Line), u.lines = s.linkedTo p (s.fresh ln) ++ [l] ∧ l.args = some vs ∧
        l.method = if t.isLoneOperand then .set_ else .expression := by
    intro a p s u ha hlower
    obtain ⟨target, path, vs', ln, -, -, -, hvs', -, rfl⟩ := (ha.lower_eq_ok ht).mp hlower
    cases h.symm.trans hvs'
    exact ⟨ln, _, s.assigned_lines _ _ _ _ _, rfl, rfl⟩
  rcases hr.readConjuncts h with ⟨hlone, v, hv, rfl, hplain⟩ | ⟨hlone, happlied⟩
  · refine ⟨iff_of_true hlone ⟨v, rfl, hplain⟩, fun _ => ⟨v, hv, rfl⟩, by simp [hlone], fun a p s u ha hlower => ?_⟩
    obtain ⟨ln, l, hlines, hargs, hmethod⟩ := hlast a p s u ha hlower
    rw [hlone] at hmethod
    exact ⟨ln, l, hlines, hargs, Or.inl ⟨hmethod, v, rfl, hplain⟩⟩
  · refine ⟨iff_of_false (by simp [hlone]) ?_, by simp [hlone], fun _ => happlied, fun a p s u ha hlower => ?_⟩
    · rintro ⟨v, rfl, hplain⟩
      simp [hplain] at happlied
    · obtain ⟨ln, l, hlines, hargs, hmethod⟩ := hlast a p s u ha hlower
      rw [hlone] at hmethod
      exact ⟨ln, l, hlines, hargs, Or.inr ⟨hmethod, happlied⟩⟩

/-- `x = a < (b + c < d) == ((e))`. -/
theorem set_lines_carry_plain_values_comparison :
    ∃ (vs : List Value) (u : Store) (ln : UInt32) (l : Line), Sample.comparison.readConjuncts = .ok vs ∧
      (Shape.assignment "x" Sample.comparison 1).lower none {} = .ok () u ∧
      u.lines = ({} : Store).linkedTo none (({} : Store).fresh ln) ++ [l] ∧ l.args = some vs ∧
      l.method = .expression ∧ vs.length = 2 ∧ ∀ v ∈ vs, v.isApplication = true := by
  obtain ⟨vs, hvs, hlength⟩ : ∃ vs, Sample.comparison.readConjuncts = .ok vs ∧ vs.length = 2 := ⟨_, rfl, rfl⟩
  obtain ⟨u, hu⟩ : ∃ u, (Shape.assignment "x" Sample.comparison 1).lower none ({} : Store) = .ok () u :=
    ⟨_, rfl⟩
  have hobeys : Sample.comparison.Obeys .expression := ⟨rfl, by decide⟩
  obtain ⟨-, -, happlied, hline⟩ := set_lines_carry_plain_values rfl hobeys.regular hvs
  obtain ⟨ln, l, hlines, hargs, h | h⟩ := hline _ none {} u (Shape.assigns_assignment "x" _ 1) hu
  · obtain ⟨v, hv, -⟩ := h.2
    cases hv
    cases hlength
  · exact ⟨vs, u, ln, l, hvs, hu, hlines, hargs, h.1, hlength, happlied rfl⟩

end Flowline
