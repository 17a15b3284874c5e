import Flowline.Proofs.Atomic
import Flowline.Proofs.Paths
import Flowline.Proofs.SetLines

/-! Assignments of literals. The line of an assignment is addressed by the first word of its right-hand side. A
    literal that is made of empty lists and dictionaries alone has no word, so an assignment of it is refused; an
    assignment of any other literal makes one `set` line. -/

namespace Flowline

/-! ### Literals without words -/

/-- The kinds of literals. -/
def Grammar.literalKinds : List NodeKind :=
  [.string, .number, .boolean, .types, .list, .objects]

namespace Tree

/-- A literal is made of empty lists and dictionaries alone: it is a list of values of which each is so made, or an
    empty dictionary. -/
inductive Hollow : Tree → Prop
  | list {items : List Tree} (h : ∀ item ∈ items, Hollow item) : Hollow (Shape.list items)
  | dict : Hollow (Shape.wrap "objects" [])
  | value {inner : Tree} (h : Hollow inner) : Hollow (Shape.values inner)

variable {t u : Tree} {k : NodeKind}

theorem words_eq_nil_iff : t.words = [] ↔ t.tokens = [] ∧ ∀ u ∈ t.subtrees, u.words = [] := by
  simp only [List.eq_nil_iff_forall_not_mem]
  constructor
  · refine fun h => ⟨fun word hword => h word (mem_words.mpr (Or.inl hword)), fun u hu word hword => ?_⟩
    exact h word (mem_words.mpr (Or.inr ⟨u, hu, hword⟩))
  · rintro ⟨htokens, hsub⟩ word hword
    rcases mem_words.mp hword with hword | ⟨u, hu, hword⟩
    · exact htokens word hword
    · exact hsub u hu word hword

theorem tokens_wrap (tag : String) (ts : List Tree) : (Shape.wrap tag ts).tokens = [] := by
  simp [tokens, Shape.wrap, Child.token?]

theorem words_wrap_eq_nil_iff {tag : String} {ts : List Tree} :
    (Shape.wrap tag ts).words = [] ↔ ∀ u ∈ ts, u.words = [] := by
  rw [words_eq_nil_iff, tokens_wrap, subtrees_wrap, and_iff_right rfl]

/-- Without tokens the subtrees are all that there is. -/
theorem eq_wrap_of_tokens (h : t.tokens = []) : t = Shape.wrap t.tag t.subtrees := by
  obtain ⟨tag, children⟩ := t
  refine congrArg (Tree.mk tag) ?_
  simp only [tokens, subtrees] at h ⊢
  induction children with
  | nil => rfl
  | cons c rest ih =>
    cases c with
    | token => cases h
    | tree u => exact congrArg (Child.tree u :: ·) (ih h)

theorem Hollow.words (h : t.Hollow) : t.words = [] := by
  induction h with
  | list _ ih => exact words_wrap_eq_nil_iff.mpr ih
  | dict => rfl
  | value _ ih => exact words_wrap_eq_nil_iff.mpr (List.forall_mem_singleton.mpr ih)

theorem Obeys.words_ne_nil (h : t.Obeys k) (hr : (Grammar.rule k).startsWith Symbol.isToken = true) : t.words ≠ [] := by
  obtain ⟨token, htoken⟩ := h.first_token hr
  exact words_ne_nil_of_mem_tokens (mem_tokens_of_tokenAt htoken)

/-- The key of an entry has a word. -/
theorem Obeys.words_ne_nil_entry (h : t.Obeys .keyValue) : t.words ≠ [] := by
  obtain ⟨key, rest, hchildren, k, hk, hkey⟩ := h.first_tree [.string, .path] rfl
  have hmem : key ∈ t.subtrees := mem_subtrees.mpr (by simp [hchildren])
  have hwords : key.words ≠ [] := by
    simp only [List.mem_cons, List.not_mem_nil, or_false] at hk
    rcases hk with rfl | rfl
    · exact hkey.words_ne_nil rfl
    · exact hkey.words_ne_nil rfl
  exact fun hnil => hwords ((words_eq_nil_iff.mp hnil).2 key hmem)

theorem Obeys.hollow_value (h : t.Obeys .values) (hw : t.words = [])
    (ih : ∀ u ∈ t.subtrees, ∀ k, u.Obeys k → k ∈ .values :: Grammar.literalKinds → u.words = [] → u.Hollow) :
    t.Hollow := by
  obtain ⟨htokens, hsub⟩ := words_eq_nil_iff.mp hw
  have hmem : ∀ {u rest}, t.children = .tree u :: rest → u ∈ t.subtrees := fun hchildren =>
    mem_subtrees.mpr (by simp [hchildren])
  rcases h.ruled.children with hliteral | htoken | ⟨_, rest, hchildren, hpath, -⟩
  · obtain ⟨u, hchildren, k, hk, hu⟩ := Pattern.nodes_iff.mp hliteral
    have hsubset : [.string, .number, .boolean, .list, .objects, .types] ⊆ Grammar.literalKinds := by decide
    have hhollow : u.Hollow := ih u (hmem hchildren) k ⟨hu, h.grammatical.subtree (hmem hchildren)⟩
      (List.mem_cons_of_mem _ (hsubset hk)) (hsub u (hmem hchildren))
    have hvalue : t = Shape.values u := by
      cases t
      exact congrArg₂ Tree.mk h.tag hchildren
    exact hvalue ▸ .value hhollow
  · obtain ⟨token, hchildren, -⟩ := Pattern.tokens_iff.mp htoken
    simp [tokens, hchildren, Child.token?] at htokens
  · -- An inline call has the word of its path.
    obtain ⟨u, rfl, k, hk, hu⟩ := Pattern.nodes_iff.mp hpath
    obtain rfl := List.mem_singleton.mp hk
    have hpath : u.Obeys .path := ⟨hu, h.grammatical.subtree (hmem hchildren)⟩
    exact absurd (hsub u (hmem hchildren)) (hpath.words_ne_nil rfl)

/-- Only what is made of empty lists and dictionaries has no word. -/
theorem Obeys.hollow (h : t.Obeys k) (hk : k ∈ .values :: Grammar.literalKinds) (hw : t.words = []) : t.Hollow := by
  induction t using subtreeInduction generalizing k with
  | step t ih =>
    obtain ⟨htokens, hsub⟩ := words_eq_nil_iff.mp hw
    have hwrap := eq_wrap_of_tokens htokens
    simp only [Grammar.literalKinds, List.mem_cons, List.not_mem_nil, or_false] at hk
    rcases hk with rfl | rfl | rfl | rfl | rfl | rfl | rfl
    · exact h.hollow_value hw fun u hu k => ih u hu
    · exact absurd hw (h.words_ne_nil rfl)
    · exact absurd hw (h.words_ne_nil rfl)
    · exact absurd hw (h.words_ne_nil rfl)
    · exact absurd hw (h.words_ne_nil rfl)
    · -- The items of a list are paths, which have words, or values.
      rw [hwrap, h.tag]
      refine .list fun u hu => ?_
      obtain ⟨k, hk, hkind⟩ := h.subtree [.values, .path] hu rfl
      simp only [List.mem_cons, List.not_mem_nil, or_false] at hk
      rcases hk with rfl | rfl
      · exact ih u hu hkind (List.mem_cons_self ..) (hsub u hu)
      · exact absurd (hsub u hu) (hkind.words_ne_nil rfl)
    · have hnil : t.subtrees = [] := List.eq_nil_iff_forall_not_mem.mpr fun u hu => by
        obtain ⟨k, hk, hkind⟩ := h.subtree [.keyValue] hu rfl
        obtain rfl := List.mem_singleton.mp hk
        exact hkind.words_ne_nil_entry (hsub u hu)
      rw [hwrap, h.tag, hnil]
      exact .dict

theorem position?_wrap (tag : String) (t : Tree) : (Shape.wrap tag [t]).position? = t.position? := by
  show positionOfChildren? [.tree t] = t.position?
  rw [positionOfChildren?, positionOfChildren?]
  cases t.position? <;> rfl

theorem line_wrap {ln : UInt32} (h : t.line = .ok ln) (tag : String) : (Shape.wrap tag [t]).line = .ok ln := by
  rw [line] at h ⊢
  rw [position?_wrap]
  split at h
  · exact h
  · cases h

theorem line_eq_error (h : t.words = []) : t.line = .error (.position t.tag) := by
  rw [line, position?_eq_words, h]
  rfl

/-! ### Reading literals -/

theorem readValue_values (ht : t.tag ≠ "path") : (Shape.values t).readValue = t.readValue := by
  change readLiteral ⟨"values", [.tree t]⟩ = readChild (.tree t)
  rw [readLiteral, if_neg ht]

theorem readConjuncts_literal {v : Value} (ht : t.tag ≠ "path") (hv : t.readValue = .ok v) :
    (Shape.expression [Shape.values t]).readConjuncts = .ok [v] := by
  refine readConjuncts_eq_ok.mpr (Or.inl ⟨Shape.values t, ⟨rfl, rfl⟩, rfl, ?_⟩)
  rw [readAlone, readValue_values ht, hv]
  rfl

/-! ### Names -/

/-- The path is made of these words, which stand in it as they are or in fragments, and each of them may name a
    variable. -/
structure NamedBy (t : Tree) (names : List Token) : Prop where
  children : List.Forall₂ (fun c name => c = .token name ∨ c = .tree ⟨"path_fragment", [.token name]⟩) t.children names
  kind : ∀ name ∈ names, name.kind = "NAME"
  slash : ∀ name ∈ names, Text.has name.value '/' = false
  dash : ∀ name ∈ names, Text.has name.value '-' = false

variable {names : List Token}

theorem NamedBy.spelledNames (h : t.NamedBy names) : t.spelledNames = names.map (·.value) := by
  obtain ⟨hchildren, hkind, -, -⟩ := h
  rw [Tree.spelledNames]
  generalize t.children = cs at hchildren ⊢
  induction hchildren with
  | nil => rfl
  | cons hc _ ih =>
    obtain ⟨hname, hrest⟩ := List.forall_mem_cons.mp hkind
    rw [List.map_cons, ← ih hrest]
    refine List.filterMap_cons_some ?_
    rcases hc with rfl | rfl
    · simp [hname]
    · simp [hname, tokenAt?, Child.token?]

theorem NamedBy.readSegments (h : t.NamedBy names) : t.readSegments = .ok (names.map fun name => .name name.value) := by
  have hspells : List.Forall₂ Child.Spells t.children (names.map (·.value)) := by
    rw [List.forall₂_map_right_iff]
    refine h.children.imp fun c name hc => ?_
    rcases hc with rfl | rfl
    · exact .word name
    · exact .fragment _ name []
  rw [Tree.readSegments, segmentsOf_eq_names_iff.mpr hspells, List.map_map]
  rfl

theorem NamedBy.checkNames (h : t.NamedBy names) : t.checkNames = .ok () := by
  rw [Tree.checkNames, h.spelledNames, forM_eq_ok]
  intro _ hmem
  obtain ⟨name, hname, rfl⟩ := List.mem_map.mp hmem
  rw [h.slash name hname, h.dash name hname]
  rfl

end Tree

/-! ### Assignments -/

section Assignments

variable {t target operand literal : Tree} {p : Option Address} {s : Store}

open LowerM in
/-- An expression without a place is refused, and the store stays as it is. -/
theorem Tree.Assigns.lower_eq_error (ha : t.Assigns operand) (ht : operand.tag = "expression")
    (htarget : t.child "path" = .ok target) (hchecked : target.checkNames = .ok ()) {path : List Segment}
    (hpath : target.readSegments = .ok path) {vs : List Value} (hvs : operand.readConjuncts = .ok vs) {e : Missing}
    (hline : operand.line = .error e) : t.lower p s = .error (Malformed.shape e).diagnostic s := by
  have hkind : OperandKind.ofTag? operand.tag = some .expression := by
    rw [ht]
    rfl
  have hoperandLine : operandLine operand p s = .error (Malformed.shape e).diagnostic s := by
    simp only [operandLine, hkind]
    rw [bind_of_ok (read_eq_ok.mpr ⟨hvs, rfl⟩), hline]
    rfl
  obtain ⟨fragment, hfragment, hoperand⟩ := ha.value
  rw [Tree.lower_assignment_eq ha.tag, lowerAssignment, bind_of_ok (lookUp_eq_ok.mpr ⟨htarget, rfl⟩),
    bind_of_ok (ensured_eq_ok.mpr ⟨hchecked, rfl⟩), bind_of_ok (read_eq_ok.mpr ⟨hpath, rfl⟩),
    bind_of_ok (lookUp_eq_ok.mpr ⟨hfragment, rfl⟩), bind_of_ok (read_eq_ok.mpr ⟨hoperand, rfl⟩)]
  show EStateM.bind _ _ s = _
  rw [EStateM.bind, hoperandLine]

/-- A literal can always be read. Its assignment to names makes one `set` line, which holds the literal and is named
    for the target, unless the literal is made of empty lists and dictionaries alone: then the assignment is
    refused, since it has no place in the source. -/
theorem literal_assigned {names : List Token} {k : NodeKind} (ha : t.Assigns (Shape.expression [Shape.values literal]))
    (htarget : t.child "path" = .ok target) (hnames : target.NamedBy names) (hk : k ∈ Grammar.literalKinds)
    (h : literal.Obeys k) (p : Option Address) (s : Store) :
    ∃ v, literal.readValue = .ok v ∧
      (¬ literal.Hollow → ∃ ln u, literal.line = .ok ln ∧ t.lower p s = .ok () u ∧
        u.lines = s.linkedTo p (s.fresh ln) ++ [{ s.newLine .set_ ln { args := some [v], parent := p } with
          name := some (names.map fun name => .name name.value) }]) ∧
      (literal.Hollow → t.lower p s = .error (Malformed.shape (.position "expression")).diagnostic s) := by
  obtain ⟨v, hv⟩ : Succeeds literal.readValue := by
    have hsubset : Grammar.literalKinds ⊆ Grammar.valueKinds := by decide
    exact h.grammatical.reads.value ⟨k, hsubset hk, h⟩
  have hconjuncts := Tree.readConjuncts_literal (NodeKind.tag_ne .path hk h.tag (by decide)) hv
  refine ⟨v, hv, fun hfull => ?_, fun hhollow => ?_⟩
  · have hwords : literal.words ≠ [] := fun hnil => hfull (h.hollow (List.mem_cons_of_mem _ hk) hnil)
    obtain ⟨ln, hln⟩ := Tree.line_of_words hwords
    have hline : (Shape.expression [Shape.values literal]).line = .ok ln := Tree.line_wrap (Tree.line_wrap hln _) _
    exact ⟨ln, _, hln, (ha.lower_eq_ok rfl).mpr ⟨target, _, [v], ln, htarget, hnames.checkNames, hnames.readSegments,
      hconjuncts, hline, rfl⟩, s.assigned_lines _ _ _ _ _⟩
  · have hwords : (Shape.expression [Shape.values literal]).words = [] := by
      rw [Shape.expression, Tree.words_wrap_eq_nil_iff, List.forall_mem_singleton]
      exact hhollow.value.words
    exact ha.lower_eq_error rfl htarget hnames.checkNames hnames.readSegments hconjuncts (Tree.line_eq_error hwords)

end Assignments

/-- `[[], {"k": []}]`, in which the key is the only word. -/
def Sample.mixed : Tree :=
  Shape.list [Shape.values (Shape.list []), Shape.values
    (Shape.wrap "objects" [Shape.wrap "key_value" [Shape.string "k" 1, Shape.values (Shape.list [])]])]

theorem literal_assigned_mixed :
    Sample.mixed.Obeys .list ∧ ∃ v u, Sample.mixed.readValue = .ok v ∧
      (Shape.assignment "a.b" (Shape.expression [Shape.values Sample.mixed]) 1).lower none ({} : Store) = .ok () u ∧
      u.lines = [{ ({} : Store).newLine .set_ 1 { args := some [v] } with name := some [.name "a", .name "b"] }] := by
  have hobeys : Sample.mixed.Obeys .list := ⟨rfl, by decide⟩
  have hnames : (Shape.path "a.b" 1).NamedBy [Shape.token "NAME" "a" 1, Shape.token "NAME" "b" 1] :=
    ⟨.cons (Or.inl rfl) (.cons (Or.inr rfl) .nil), by decide, by decide, by decide⟩
  have hfull : ¬ Sample.mixed.Hollow := fun hhollow => List.cons_ne_nil _ _ hhollow.words
  obtain ⟨v, hv, hassigned, -⟩ :=
    literal_assigned (Shape.assigns_assignment "a.b" _ 1) rfl hnames (by decide) hobeys none {}
  obtain ⟨ln, u, hline, hlower, hlines⟩ := hassigned hfull
  obtain rfl : 1 = ln := Except.ok.inj hline
  exact ⟨hobeys, v, u, hv, hlower, hlines⟩

/-- `x = []` is refused. -/
theorem empty_list_refused :
    (Shape.list []).Obeys .list ∧ ∃ d, d.code = .malformedTree ∧
      (Shape.assignment "x" (Shape.expression [Shape.values (Shape.list [])]) 1).lower none ({} : Store) = .error d {} ∧
      compile (Shape.script [Shape.assignment "x" (Shape.expression [Shape.values (Shape.list [])]) 1]) = .error d :=
  ⟨⟨rfl, by decide⟩, (Malformed.shape (.position "expression")).diagnostic, rfl, rfl, rfl⟩

end Flowline
