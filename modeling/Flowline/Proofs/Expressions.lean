import Flowline.Proofs.Action
import Flowline.Proofs.Lines
import Flowline.Proofs.Reading
import Flowline.Tree.Shape

/-! What expressions mean. An interpretation says what operators do to operands and what values without operators
    stand for. Reading an expression keeps its meaning under every interpretation, and it fails only where a node
    of the expression is at fault: its operators and operands do not go together, an operator has no symbol, or an
    operand that is not an expression cannot be read. -/

namespace Flowline

/-! ### The operators and the operands of a node -/

/-- Whether a child of an expression is an operator, bare or wrapped. -/
def Child.isOperator : Child → Bool
  | .token _ => true
  | .tree t => t.tag == "operator"

/-- The symbol of an operator. -/
def Child.symbol? : Child → Option String
  | .token symbol => some symbol.value
  | .tree t => (t.tokenAt? 0).map (·.value)

namespace Tree

variable {t u : Tree} {symbols : List String} {vs : List Value}

/-- The operators of an expression. -/
def operators (t : Tree) : List Child :=
  t.children.filter (·.isOperator)

/-- The operators have these symbols, and stand between as many operands as they need. -/
structure Operated (t : Tree) (symbols : List String) : Prop where
  spells : t.operators.map Child.symbol? = symbols.map some
  counts : t.operands.length = symbols.length + 1

theorem operatorsOf_eq_ok {cs : List Child} :
    operatorsOf cs = .ok symbols ↔ (cs.filter (·.isOperator)).map Child.symbol? = symbols.map some := by
  induction cs generalizing symbols with
  | nil => cases symbols <;> simp [operatorsOf]
  | cons c rest ih =>
    have hcons : ∀ symbol : String,
        (do return symbol :: (← operatorsOf rest) : Except Malformed (List String)) = .ok symbols ↔
          some symbol :: (rest.filter (·.isOperator)).map Child.symbol? = symbols.map some := by
      intro symbol
      rw [except_bind_eq_ok]
      cases symbols with
      | nil => simp [pure, Except.pure]
      | cons first symbols =>
        simp only [ih, pure, Except.pure, Except.ok.injEq, List.cons.injEq, List.map_cons, Option.some.injEq]
        constructor
        · rintro ⟨_, hrest, rfl, rfl⟩
          exact ⟨rfl, hrest⟩
        · rintro ⟨rfl, hrest⟩
          exact ⟨symbols, hrest, rfl, rfl⟩
    cases c with
    | token word => exact hcons word.value
    | tree o =>
      rw [operatorsOf]
      by_cases ho : o.tag = "operator"
      · have hkeep : (Child.tree o).isOperator = true := by simp [Child.isOperator, ho]
        rw [if_pos ho, List.filter_cons_of_pos hkeep, List.map_cons, Child.symbol?, tokenAt]
        cases o.tokenAt? 0 with
        | none => cases symbols <;> simp [liftM, monadLift, MonadLift.monadLift, Except.mapError, bind, Except.bind]
        | some word => exact hcons word.value
      · have hdrop : ¬ (Child.tree o).isOperator = true := by simp [Child.isOperator, ho]
        rw [if_neg ho, List.filter_cons_of_neg hdrop, ih]

theorem readOperators_eq_ok : t.readOperators = .ok symbols ↔ t.Operated symbols := by
  rw [readOperators, except_bind_eq_ok]
  constructor
  · rintro ⟨symbols', hsymbols, h⟩
    split at h
    · cases h
      exact ⟨operatorsOf_eq_ok.mp hsymbols, by assumption⟩
    · cases h
  · rintro ⟨hsymbols, hoperands⟩
    exact ⟨symbols, operatorsOf_eq_ok.mpr hsymbols, if_pos hoperands⟩

/-- A row of children is read by reading those that matter, one after the other. -/
theorem Walks.eq_mapM {α : Type} {walk : List Child → Except Malformed (List α)} {keep : String → Bool}
    {read : Tree → Except Malformed α} (hw : Walks walk (readWhere keep read)) (t : Tree) :
    walk t.children = (t.subtrees.filter (keep ·.tag)).mapM read := by
  rw [subtrees]
  induction t.children with
  | nil => exact hw.nil
  | cons c rest ih =>
    cases c with
    | token word => rw [hw.skip _ rest rfl, ih, List.filterMap_cons_none rfl]
    | tree u =>
      have hcons : (Child.tree u :: rest).filterMap Child.tree? = u :: rest.filterMap Child.tree? := rfl
      rw [hcons]
      cases hu : keep u.tag with
      | false => rw [hw.skip _ rest (by simp [readWhere, hu]), ih, List.filter_cons_of_neg (by simp [hu])]
      | true =>
        rw [hw.read _ rest (read u) (by simp [readWhere, hu]), ih, List.filter_cons_of_pos (by simp [hu]),
          List.mapM_cons]

theorem mapM_eq_ok {α β ε : Type} {f : α → Except ε β} {xs : List α} {ys : List β} :
    xs.mapM f = .ok ys ↔ List.Forall₂ (fun x y => f x = .ok y) xs ys := by
  induction xs generalizing ys with
  | nil => cases ys <;> simp [pure, Except.pure]
  | cons x xs ih =>
    rw [List.mapM_cons, except_bind_eq_ok]
    simp only [except_bind_eq_ok, ih, pure, Except.pure, Except.ok.injEq]
    constructor
    · rintro ⟨y, hy, ys, hys, rfl⟩
      exact .cons hy hys
    · rintro (_ | ⟨hy, hys⟩)
      exact ⟨_, hy, _, hys, rfl⟩

/-- Without operators the operands are all that there is. -/
theorem children_eq_of_operators (h : t.operators = []) : t.children = t.operands.map .tree := by
  obtain ⟨tag, children⟩ := t
  have hnone : ∀ c ∈ children, ¬ c.isOperator = true := List.filter_eq_nil_iff.mp h
  clear h
  change children = ((children.filterMap Child.tree?).filter (·.tag != "operator")).map Child.tree
  induction children with
  | nil => rfl
  | cons c rest ih =>
    obtain ⟨hc, hrest⟩ := List.forall_mem_cons.mp hnone
    cases c with
    | token => exact absurd rfl hc
    | tree u =>
      have hu : (u.tag != "operator") = true := by simpa [Child.isOperator] using hc
      have hcons : (Child.tree u :: rest).filterMap Child.tree? = u :: rest.filterMap Child.tree? := rfl
      rw [hcons, List.filter_cons, if_pos hu, List.map_cons, ← ih hrest]

theorem Operated.operators_nil (h : t.Operated []) : t.operators = [] :=
  List.map_eq_nil_iff.mp h.spells

theorem Operated.operands_singleton (h : t.Operated []) : ∃ u, t.operands = [u] :=
  List.length_eq_one_iff.mp h.counts

theorem readValue_expression (ht : t.tag = "expression") : t.readValue = t.readExpression := by
  rw [readValue, readChild, ht]
  rfl

/-- The conjuncts of an operand that stands alone. -/
def readAlone (u : Tree) : Except Malformed (List Value) :=
  if u.tag = "expression" then u.readConjuncts else do return [← u.readValue]

/-- The conjuncts of an expression with these operators. -/
def conjunctsUnder (t : Tree) : List String → Except Malformed (List Value)
  | [] => loneConjuncts t.children
  | symbols => do return applyOperators symbols (← operandsOf t.children)

theorem readConjuncts_eq_bind (t : Tree) : t.readConjuncts = t.readOperators >>= t.conjunctsUnder := by
  cases t
  unfold readConjuncts
  rfl

/-- An expression is read by its symbols: without any it is read as its one operand is, and else the symbols are
    applied to the values of the operands. -/
theorem readConjuncts_eq_ok : t.readConjuncts = .ok vs ↔
    (∃ u, t.Operated [] ∧ t.operands = [u] ∧ u.readAlone = .ok vs) ∨
      ∃ symbols values, symbols ≠ [] ∧ t.Operated symbols ∧
        List.Forall₂ (fun u v => u.readValue = .ok v) t.operands values ∧ vs = applyOperators symbols values := by
  have halone : ∀ u, t.Operated [] → t.operands = [u] → loneConjuncts t.children = u.readAlone := by
    intro u hoperated hu
    rw [children_eq_of_operators hoperated.operators_nil, hu, List.map_singleton, loneConjuncts]
    rfl
  have hoperands : operandsOf t.children = t.operands.mapM readValue := operandsOf_walks.eq_mapM t
  rw [readConjuncts_eq_bind, except_bind_eq_ok]
  constructor
  · rintro ⟨symbols, hsymbols, h⟩
    have hoperated := readOperators_eq_ok.mp hsymbols
    cases symbols with
    | nil =>
      obtain ⟨u, hu⟩ := hoperated.operands_singleton
      exact Or.inl ⟨u, hoperated, hu, halone u hoperated hu ▸ h⟩
    | cons symbol symbols =>
      obtain ⟨values, hvalues, h⟩ := except_bind_eq_ok.mp h
      cases h
      rw [hoperands, mapM_eq_ok] at hvalues
      exact Or.inr ⟨_, values, List.cons_ne_nil _ _, hoperated, hvalues, rfl⟩
  · rintro (⟨u, hoperated, hu, h⟩ | ⟨symbols, values, hne, hoperated, hvalues, rfl⟩)
    · exact ⟨[], readOperators_eq_ok.mpr hoperated, (halone u hoperated hu).trans h⟩
    · refine ⟨symbols, readOperators_eq_ok.mpr hoperated, ?_⟩
      cases symbols with
      | nil => exact absurd rfl hne
      | cons =>
        rw [conjunctsUnder, hoperands, mapM_eq_ok.mpr hvalues]
        · rfl
        · simp

/-! ### Where reading fails -/

theorem mem_subtrees_of_mem_operands (h : u ∈ t.operands) : u ∈ t.subtrees :=
  (List.mem_filter.mp h).1

theorem readConjuncts_ne_nil (h : t.readConjuncts = .ok vs) : vs ≠ [] := by
  induction t using subtreeInduction generalizing vs with
  | step t ih =>
    rcases readConjuncts_eq_ok.mp h with ⟨u, -, hu, h⟩ | ⟨symbols, values, hne, hoperated, hvalues, rfl⟩
    · rw [readAlone] at h
      split at h
      · exact ih u (mem_subtrees_of_mem_operands (hu ▸ List.mem_singleton_self u)) h
      · obtain ⟨v, -, h⟩ := except_bind_eq_ok.mp h
        cases h
        exact List.cons_ne_nil v []
    · obtain ⟨v, rest, hv⟩ := applyOperators_cons hne (hvalues.length_eq ▸ hoperated.counts)
      rw [hv]
      exact List.cons_ne_nil v rest

theorem readExpression_eq_ok {v : Value} : t.readExpression = .ok v ↔
    ∃ first rest, t.readConjuncts = .ok (first :: rest) ∧ v = rest.foldl (.binary "and") first := by
  rw [readExpression, except_bind_eq_ok]
  constructor
  · rintro ⟨_ | ⟨first, rest⟩, hconjuncts, h⟩
    · cases h
    · exact ⟨first, rest, hconjuncts, (Except.ok.inj h).symm⟩
  · rintro ⟨first, rest, hconjuncts, rfl⟩
    exact ⟨first :: rest, hconjuncts, rfl⟩

theorem readConjuncts_succeeds_iff : Succeeds t.readConjuncts ↔ Succeeds t.readExpression := by
  constructor
  · rintro ⟨vs, h⟩
    obtain ⟨first, rest, rfl⟩ := List.exists_cons_of_ne_nil (readConjuncts_ne_nil h)
    exact ⟨_, readExpression_eq_ok.mpr ⟨first, rest, h, rfl⟩⟩
  · rintro ⟨v, h⟩
    obtain ⟨first, rest, h, -⟩ := readExpression_eq_ok.mp h
    exact ⟨_, h⟩

/-- The node cannot be read, whatever the expressions below it: it has not one more operand than operators, an
    operator has no symbol, or an operand that is not an expression cannot be read. -/
def Faulty (t : Tree) : Prop :=
  t.operands.length ≠ t.operators.length + 1 ∨ (∃ o ∈ t.operators, o.symbol? = none) ∨
    ∃ u ∈ t.operands, u.tag ≠ "expression" ∧ ¬ Succeeds u.readValue

/-- `u` is an operand of `t` and an expression itself. -/
def Nests (t u : Tree) : Prop :=
  u ∈ t.operands ∧ u.tag = "expression"

/-- `u` is among the expressions that reading `t` visits. -/
def Visits : Tree → Tree → Prop :=
  Relation.ReflTransGen Nests

theorem visits_iff {v : Tree} : t.Visits v ↔ v = t ∨ ∃ u, t.Nests u ∧ u.Visits v := by
  rw [Visits, Relation.ReflTransGen.cases_head_iff, eq_comm]

theorem exists_operated (h : ¬ t.Faulty) : ∃ symbols, t.Operated symbols := by
  have hcount : t.operands.length = t.operators.length + 1 := by
    by_contra hne
    exact h (Or.inl hne)
  have hspelled : ∀ symbol ∈ t.operators.map Child.symbol?, symbol.isSome = true := by
    intro symbol hmem
    obtain ⟨o, ho, rfl⟩ := List.mem_map.mp hmem
    by_contra hnone
    exact h (Or.inr (Or.inl ⟨o, ho, by simpa using hnone⟩))
  have hspells : t.operators.map Child.symbol? = (t.operators.filterMap Child.symbol?).map some := by
    rw [List.map_filterMap_some_eq_filter_map_isSome, List.filter_eq_self.mpr hspelled]
  have hlength := congrArg List.length hspells
  rw [List.length_map, List.length_map] at hlength
  exact ⟨_, hspells, hlength ▸ hcount⟩

theorem Operated.length (h : t.Operated symbols) : t.operators.length = symbols.length := by
  simpa using congrArg List.length h.spells

theorem readAlone_succeeds_iff : Succeeds u.readAlone ↔ Succeeds u.readValue := by
  rw [readAlone]
  split
  · rename_i hu
    rw [readValue_expression hu, readConjuncts_succeeds_iff]
  · constructor
    · rintro ⟨vs, h⟩
      obtain ⟨v, hv, -⟩ := except_bind_eq_ok.mp h
      exact ⟨v, hv⟩
    · exact Succeeds.map

/-- A node is read if it has the operators that its operands need, and its operands are read. -/
theorem readConjuncts_succeeds_iff_operands :
    Succeeds t.readConjuncts ↔ (∃ symbols, t.Operated symbols) ∧ ∀ u ∈ t.operands, Succeeds u.readValue := by
  constructor
  · rintro ⟨vs, h⟩
    rcases readConjuncts_eq_ok.mp h with ⟨u, hoperated, hu, h⟩ | ⟨symbols, values, -, hoperated, hvalues, -⟩
    · refine ⟨⟨[], hoperated⟩, ?_⟩
      rw [hu, List.forall_mem_singleton]
      exact readAlone_succeeds_iff.mp ⟨vs, h⟩
    · refine ⟨⟨symbols, hoperated⟩, fun u hu => ?_⟩
      obtain ⟨v, -, hv⟩ := forall₂_mem_left hvalues u hu
      exact ⟨v, hv⟩
  · rintro ⟨⟨symbols, hoperated⟩, hread⟩
    cases symbols with
    | nil =>
      obtain ⟨u, hu⟩ := hoperated.operands_singleton
      obtain ⟨vs, h⟩ := readAlone_succeeds_iff.mpr (hread u (hu ▸ List.mem_singleton_self u))
      exact ⟨vs, readConjuncts_eq_ok.mpr (Or.inl ⟨u, hoperated, hu, h⟩)⟩
    | cons symbol symbols =>
      obtain ⟨values, hvalues⟩ := succeeds_mapM hread
      exact ⟨_, readConjuncts_eq_ok.mpr
        (Or.inr ⟨_, values, List.cons_ne_nil _ _, hoperated, mapM_eq_ok.mp hvalues, rfl⟩)⟩

theorem not_faulty_iff : ¬ t.Faulty ↔
    (∃ symbols, t.Operated symbols) ∧ ∀ u ∈ t.operands, u.tag ≠ "expression" → Succeeds u.readValue := by
  constructor
  · intro h
    refine ⟨exists_operated h, fun u hu hne => ?_⟩
    by_contra hread
    exact h (Or.inr (Or.inr ⟨u, hu, hne, hread⟩))
  · rintro ⟨⟨symbols, hoperated⟩, hread⟩ (hcount | ⟨o, ho, hnone⟩ | ⟨u, hu, hne, hfails⟩)
    · exact hcount (hoperated.length ▸ hoperated.counts)
    · have hmem : o.symbol? ∈ symbols.map some := hoperated.spells ▸ List.mem_map_of_mem ho
      simp [hnone] at hmem
    · exact hfails (hread u hu hne)

/-- A node is read if it is not at fault and the expressions among its operands are read. -/
theorem readConjuncts_succeeds_iff_nests :
    Succeeds t.readConjuncts ↔ ¬ t.Faulty ∧ ∀ u, t.Nests u → Succeeds u.readConjuncts := by
  have hnested : ∀ u, t.Nests u → (Succeeds u.readValue ↔ Succeeds u.readConjuncts) := fun u hu => by
    rw [readValue_expression hu.2, readConjuncts_succeeds_iff]
  rw [readConjuncts_succeeds_iff_operands, not_faulty_iff]
  constructor
  · rintro ⟨hoperated, hread⟩
    exact ⟨⟨hoperated, fun u hu _ => hread u hu⟩, fun u hu => (hnested u hu).mp (hread u hu.1)⟩
  · rintro ⟨⟨hoperated, hleaf⟩, hread⟩
    refine ⟨hoperated, fun u hu => ?_⟩
    by_cases htag : u.tag = "expression"
    · exact (hnested u ⟨hu, htag⟩).mpr (hread u ⟨hu, htag⟩)
    · exact hleaf u hu htag

/-- An expression is read if no expression that is visited is at fault. -/
theorem readConjuncts_succeeds_iff_visits : Succeeds t.readConjuncts ↔ ∀ u, t.Visits u → ¬ u.Faulty := by
  induction t using subtreeInduction with
  | step t ih =>
    -- What is visited besides the node itself is visited from an expression among its operands.
    have hnested : ∀ u, t.Nests u → (Succeeds u.readConjuncts ↔ ∀ v, u.Visits v → ¬ v.Faulty) :=
      fun u hu => ih u (mem_subtrees_of_mem_operands hu.1)
    rw [readConjuncts_succeeds_iff_nests]
    constructor
    · rintro ⟨hself, hread⟩ v hv
      rcases visits_iff.mp hv with rfl | ⟨u, hu, hv⟩
      · exact hself
      · exact (hnested u hu).mp (hread u hu) v hv
    · intro h
      refine ⟨h t (visits_iff.mpr (Or.inl rfl)), fun u hu => (hnested u hu).mpr fun v hv => ?_⟩
      exact h v (visits_iff.mpr (Or.inr ⟨u, hu, hv⟩))

end Tree

/-! ### Meanings -/

/-- What operators do to operands, and what values without operators stand for. -/
structure Interpretation (D : Type*) where
  operate : String → D → D → D
  plain : Value → D

/-- The symbol between the holes of a template. -/
def Value.symbolOf (template : String) : String :=
  String.ofList ((template.toList.drop 3).rdrop 3)

/-- What a value means: an operator that is applied to two values operates on what these mean. -/
def Value.meaning {D : Type*} (I : Interpretation D) : Value → D
  | .expression template [left, right] =>
    if template = "\x7b\x7d " ++ symbolOf template ++ " \x7b\x7d" then
      I.operate (symbolOf template) (left.meaning I) (right.meaning I)
    else I.plain (.expression template [left, right])
  | v => I.plain v

section Meaning

variable {D : Type*} (I : Interpretation D)

theorem Value.symbolOf_template (symbol : String) : symbolOf ("\x7b\x7d " ++ symbol ++ " \x7b\x7d") = symbol := by
  simp [symbolOf, List.rdrop]

theorem Value.meaning_binary (symbol : String) (left right : Value) :
    (Value.binary symbol left right).meaning I = I.operate symbol (left.meaning I) (right.meaning I) := by
  rw [binary, meaning, symbolOf_template, if_pos rfl]

/-- What an expression means in the source. An operand that is not an expression means what its value does, and one
    that stands alone means itself. Two or more operators that all compare mean that each comparison of neighbours
    holds; any others are applied from the left. -/
inductive Tree.Means : Tree → D → Prop
  | leaf {t : Tree} {v : Value} (ht : t.tag ≠ "expression") (hv : t.readValue = .ok v) : Means t (v.meaning I)
  | alone {t u : Tree} {d : D} (ht : t.tag = "expression") (hoperators : t.operators = []) (hu : t.operands = [u])
      (h : Means u d) : Means t d
  | comparisons {t : Tree} {symbols : List String} {ds : List D} {first : D} {rest : List D}
      (ht : t.tag = "expression") (hoperated : t.Operated symbols) (htwo : 2 ≤ symbols.length)
      (hcompare : symbols.all isComparison = true) (hlength : t.operands.length = ds.length)
      (h : ∀ pair ∈ t.operands.zip ds, Means pair.1 pair.2)
      (hpairs : List.zipWith3 I.operate symbols ds ds.tail = first :: rest) :
      Means t (rest.foldl (I.operate "and") first)
  | chain {t : Tree} {symbols : List String} {first : D} {rest : List D} (ht : t.tag = "expression")
      (hoperated : t.Operated symbols) (hne : symbols ≠ [])
      (hother : ¬ (2 ≤ symbols.length ∧ symbols.all isComparison = true))
      (hlength : t.operands.length = (first :: rest).length)
      (h : ∀ pair ∈ t.operands.zip (first :: rest), Means pair.1 pair.2) :
      Means t ((symbols.zip rest).foldl (fun left step => I.operate step.1 left step.2) first)

namespace Tree

variable {I} {t : Tree}

theorem foldl_binary_meaning (steps : List (String × Value)) (first : Value) :
    (steps.foldl (fun left step => .binary step.1 left step.2) first).meaning I =
      (steps.map fun step => (step.1, step.2.meaning I)).foldl (fun left step => I.operate step.1 left step.2)
        (first.meaning I) := by
  induction steps generalizing first with
  | nil => rfl
  | cons step steps ih => rw [List.foldl_cons, ih, Value.meaning_binary, List.map_cons, List.foldl_cons]

theorem foldl_and_meaning (rest : List Value) (first : Value) :
    (rest.foldl (.binary "and") first).meaning I =
      (rest.map (·.meaning I)).foldl (I.operate "and") (first.meaning I) := by
  induction rest generalizing first with
  | nil => rfl
  | cons v rest ih => rw [List.foldl_cons, ih, Value.meaning_binary, List.map_cons, List.foldl_cons]

theorem adjacent_meaning (symbols : List String) (rest : List Value) (first : Value) :
    (adjacent first (symbols.zip rest)).map (·.meaning I) =
      List.zipWith3 I.operate symbols (first.meaning I :: rest.map (·.meaning I)) (rest.map (·.meaning I)) := by
  induction symbols generalizing first rest with
  | nil => rfl
  | cons symbol symbols ih =>
    cases rest with
    | nil => rfl
    | cons v rest =>
      rw [List.zip_cons_cons, adjacent, List.map_cons, Value.meaning_binary, ih]
      rfl

/-- Values are a source's meaning if joined by `and` they are. -/
def MeanTogether (I : Interpretation D) (t : Tree) (vs : List Value) : Prop :=
  ∃ first rest, vs = first :: rest ∧ t.Means I ((rest.map (·.meaning I)).foldl (I.operate "and") (first.meaning I))

/-- Symbols applied to values mean what the expression does whose operands mean what the values do. -/
theorem applyOperators_means {symbols : List String} {values : List Value} (ht : t.tag = "expression")
    (hne : symbols ≠ []) (hoperated : t.Operated symbols)
    (hvalues : List.Forall₂ (fun u v => u.Means I (v.meaning I)) t.operands values) :
    t.MeanTogether I (applyOperators symbols values) := by
  have hlength := hvalues.length_eq
  have hmeans : ∀ pair ∈ t.operands.zip (values.map (·.meaning I)), pair.1.Means I pair.2 := by
    have hforall := List.forall₂_map_right_iff.mpr hvalues
    exact fun pair hpair => (List.forall₂_iff_zip.mp hforall).2 hpair
  cases values with
  | nil => exact absurd (hlength.symm.trans hoperated.counts) (by simp)
  | cons first rest =>
    rw [applyOperators]
    split
    · rename_i hcompare
      obtain ⟨htwo, hcompare⟩ := Bool.and_eq_true_iff.mp hcompare
      obtain ⟨v, vs, hvs⟩ : ∃ v vs, adjacent first (symbols.zip rest) = v :: vs := by
        cases symbols with
        | nil => exact absurd rfl hne
        | cons =>
          cases rest with
          | nil => exact absurd (hlength.symm.trans hoperated.counts) (by simp)
          | cons => exact ⟨_, _, rfl⟩
      have hpairs := adjacent_meaning (I := I) symbols rest first
      rw [hvs] at hpairs
      refine ⟨v, vs, hvs, .comparisons ht hoperated (of_decide_eq_true htwo) hcompare ?_ hmeans hpairs.symm⟩
      rw [hlength, List.length_map]
    · rename_i hother
      refine ⟨_, [], rfl, ?_⟩
      rw [List.map_nil, List.foldl_nil, foldl_binary_meaning]
      have hsteps : (symbols.zip rest).map (fun step => (step.1, step.2.meaning I)) =
          symbols.zip (rest.map (·.meaning I)) := by
        rw [List.zip_map_right]
        rfl
      rw [hsteps]
      refine .chain ht hoperated hne (fun hcompare => hother ?_) ?_ hmeans
      · exact Bool.and_eq_true_iff.mpr ⟨decide_eq_true hcompare.1, hcompare.2⟩
      · rw [hlength, List.length_cons, List.length_cons, List.length_map]

theorem readConjuncts_means {vs : List Value} (ht : t.tag = "expression") (h : t.readConjuncts = .ok vs) :
    t.MeanTogether I vs := by
  induction t using subtreeInduction generalizing vs with
  | step t ih =>
    -- An operand is read as one value, while the node itself may have several conjuncts.
    have hoperand : ∀ u ∈ t.operands, ∀ v, u.readValue = .ok v → u.Means I (v.meaning I) := by
      intro u hu v hv
      by_cases hut : u.tag = "expression"
      · rw [readValue_expression hut] at hv
        obtain ⟨first, rest, hconjuncts, rfl⟩ := readExpression_eq_ok.mp hv
        obtain ⟨_, _, heq, hmeans⟩ := ih u (mem_subtrees_of_mem_operands hu) hut hconjuncts
        cases heq
        rwa [foldl_and_meaning]
      · exact .leaf hut hv
    rcases readConjuncts_eq_ok.mp h with ⟨u, hoperated, hu, h⟩ | ⟨symbols, values, hne, hoperated, hvalues, rfl⟩
    · have hmem : u ∈ t.operands := hu ▸ List.mem_singleton_self u
      rw [readAlone] at h
      split at h
      · rename_i hut
        obtain ⟨first, rest, rfl, hmeans⟩ := ih u (mem_subtrees_of_mem_operands hmem) hut h
        exact ⟨first, rest, rfl, .alone ht hoperated.operators_nil hu hmeans⟩
      · obtain ⟨v, hv, h⟩ := except_bind_eq_ok.mp h
        cases h
        exact ⟨v, [], rfl, .alone ht hoperated.operators_nil hu (hoperand u hmem v hv)⟩
    · exact applyOperators_means ht hne hoperated (forall₂_imp_mem hvalues hoperand)

theorem readExpression_means {v : Value} (ht : t.tag = "expression") (h : t.readExpression = .ok v) :
    t.Means I (v.meaning I) := by
  obtain ⟨first, rest, hconjuncts, rfl⟩ := readExpression_eq_ok.mp h
  obtain ⟨_, _, heq, hmeans⟩ := readConjuncts_means ht hconjuncts
  cases heq
  rwa [foldl_and_meaning]

/-! ### One meaning -/

theorem Operated.unique {symbols symbols' : List String} (h : t.Operated symbols) (h' : t.Operated symbols') :
    symbols = symbols' :=
  List.map_injective_iff.mpr (Option.some_injective _) (h.spells.symm.trans h'.spells)

theorem Operated.of_operators_nil {symbols : List String} (h : t.Operated symbols) (hnil : t.operators = []) :
    symbols = [] := by
  rw [← List.length_eq_zero_iff, ← h.length, hnil, List.length_nil]

theorem eq_of_zip {α β : Type*} {R : α → β → Prop} {xs : List α} {ys zs : List β} (hys : xs.length = ys.length)
    (hzs : xs.length = zs.length) (h : ∀ pair ∈ xs.zip ys, ∀ z, R pair.1 z → pair.2 = z)
    (hr : ∀ pair ∈ xs.zip zs, R pair.1 pair.2) : ys = zs := by
  induction xs generalizing ys zs with
  | nil =>
    rw [List.length_eq_zero_iff.mp hys.symm, List.length_eq_zero_iff.mp hzs.symm]
  | cons x xs ih =>
    cases ys with
    | nil => cases hys
    | cons y ys =>
      cases zs with
      | nil => cases hzs
      | cons z zs =>
        rw [List.zip_cons_cons, List.forall_mem_cons] at h hr
        obtain rfl : y = z := h.1 z hr.1
        rw [ih (Nat.succ.inj hys) (Nat.succ.inj hzs) h.2 hr.2]

/-- An expression has one meaning at most. -/
theorem Means.unique {d d' : D} (h : t.Means I d) (h' : t.Means I d') : d = d' := by
  -- A node has one row of symbols, which decides by which rule it means something.
  induction h generalizing d' with
  | leaf ht hv =>
    cases h' with
    | leaf _ hv' => rw [Except.ok.inj (hv.symm.trans hv')]
    | alone ht' | comparisons ht' | chain ht' => exact absurd ht' ht
  | alone ht hoperators hu _ ih =>
    cases h' with
    | leaf ht' => exact absurd ht ht'
    | alone _ _ hu' h' =>
      cases hu.symm.trans hu'
      exact ih h'
    | comparisons _ hoperated htwo => simp [hoperated.of_operators_nil hoperators] at htwo
    | chain _ hoperated hne => exact absurd (hoperated.of_operators_nil hoperators) hne
  | comparisons ht hoperated htwo hcompare hlength _ hpairs ih =>
    cases h' with
    | leaf ht' => exact absurd ht ht'
    | alone _ hoperators => simp [hoperated.of_operators_nil hoperators] at htwo
    | comparisons _ hoperated' _ _ hlength' h' hpairs' =>
      cases hoperated.unique hoperated'
      cases eq_of_zip hlength hlength' ih h'
      cases hpairs.symm.trans hpairs'
      rfl
    | chain _ hoperated' _ hother =>
      cases hoperated.unique hoperated'
      exact absurd ⟨htwo, hcompare⟩ hother
  | chain ht hoperated hne hother hlength _ ih =>
    cases h' with
    | leaf ht' => exact absurd ht ht'
    | alone _ hoperators => exact absurd (hoperated.of_operators_nil hoperators) hne
    | comparisons _ hoperated' htwo hcompare =>
      cases hoperated.unique hoperated'
      exact absurd ⟨htwo, hcompare⟩ hother
    | chain _ hoperated' _ _ hlength' h' =>
      cases hoperated.unique hoperated'
      cases eq_of_zip hlength hlength' ih h'
      rfl

end Tree

/-- Reading an expression keeps its one meaning, whether it is read as one value or as conjuncts to be joined. It
    fails exactly if an expression that is visited is at fault. -/
theorem expression_keeps_meaning {t : Tree} (ht : t.tag = "expression") :
    (∀ v, t.readExpression = .ok v → ∀ d, t.Means I d ↔ d = v.meaning I) ∧
      (Succeeds t.readConjuncts ↔ Succeeds t.readExpression) ∧
      (∀ vs, t.readConjuncts = .ok vs → ∃ first rest, vs = first :: rest ∧
        ∀ d, t.Means I d ↔ d = (rest.map (·.meaning I)).foldl (I.operate "and") (first.meaning I)) ∧
      (¬ Succeeds t.readExpression ↔ ∃ u, t.Visits u ∧ u.Faulty) := by
  have hiff : ∀ {d}, t.Means I d → ∀ d', t.Means I d' ↔ d' = d := fun h d' =>
    ⟨fun h' => h'.unique h, fun heq => heq ▸ h⟩
  refine ⟨fun v hv => hiff (Tree.readExpression_means ht hv), Tree.readConjuncts_succeeds_iff, fun vs hvs => ?_, ?_⟩
  · obtain ⟨first, rest, hcons, hmeans⟩ := Tree.readConjuncts_means ht hvs
    exact ⟨first, rest, hcons, hiff hmeans⟩
  · rw [← Tree.readConjuncts_succeeds_iff, Tree.readConjuncts_succeeds_iff_visits]
    simp only [not_forall, not_not, exists_prop]

end Meaning

/-- Expressions as texts, with all their parentheses. -/
def Interpretation.parenthesized : Interpretation String where
  operate symbol left right := "(" ++ left ++ " " ++ symbol ++ " " ++ right ++ ")"
  plain
    | .path [.name name] => name
    | _ => ""

/-- `a < (b + c < d) == ((e))`. -/
def Sample.comparison : Tree :=
  Shape.expression [Shape.path "a" 1, Shape.operator "<" 1,
    Shape.expression [Shape.path "b" 1, Shape.operator "+" 1, Shape.path "c" 1, Shape.operator "<" 1, Shape.path "d" 1],
    Shape.operator "==" 1, Shape.expression [Shape.expression [Shape.path "e" 1]]]

theorem expression_keeps_meaning_comparison :
    Sample.comparison.tag = "expression" ∧ (∃ v, Sample.comparison.readExpression = .ok v) ∧
      {d | Sample.comparison.Means Interpretation.parenthesized d} =
        {"((a < ((b + c) < d)) and (((b + c) < d) == e))"} := by
  obtain ⟨v, hv, hmeaning⟩ : ∃ v, Sample.comparison.readExpression = .ok v ∧
      v.meaning Interpretation.parenthesized = "((a < ((b + c) < d)) and (((b + c) < d) == e))" := by
    apply Exists.intro
    refine ⟨?_, ?_⟩
    · rfl
    · decide
  refine ⟨rfl, ⟨v, hv⟩, ?_⟩
  rw [← hmeaning]
  exact Set.ext ((expression_keeps_meaning Interpretation.parenthesized rfl).1 v hv)

end Flowline
