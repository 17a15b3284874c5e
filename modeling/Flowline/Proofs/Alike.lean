import Flowline.Proofs.Operands
import Flowline.Proofs.Reports

/-! Trees that differ only in where their tokens stand. The same things are found in them and they are read alike:
    a value does not tell where it is written. A value that is written in a script names no variable of an
    operand, unless a token does. -/

namespace Flowline

/-! ### Tokens and trees -/

/-- The text does not mention a variable that operands are computed into. -/
def Text.Clean (text : String) : Prop :=
  ¬"__p-".toList <:+: text.toList

instance (text : String) : Decidable (Text.Clean text) :=
  inferInstanceAs (Decidable ¬_)

/-- The same token at another place; its source line has gone from `n` to `f n`. -/
structure Token.Moved (f : UInt32 → UInt32) (a b : Token) : Prop where
  kind : b.kind = a.kind
  value : b.value = a.value
  line : b.position.line = f a.position.line

mutual

/-- Trees that are alike except for their tokens, which are related in pairs. -/
inductive Tree.Alike (R : Token → Token → Prop) : Tree → Tree → Prop
  | node {tag : String} {cs cs' : List Child} (h : List.Forall₂ (Child.Alike R) cs cs') :
      Tree.Alike R ⟨tag, cs⟩ ⟨tag, cs'⟩

/-- Children that are alike except for their tokens. -/
inductive Child.Alike (R : Token → Token → Prop) : Child → Child → Prop
  | token {a b : Token} (h : R a b) : Child.Alike R (.token a) (.token b)
  | tree {t t' : Tree} (h : Tree.Alike R t t') : Child.Alike R (.tree t) (.tree t')

end

mutual

theorem Tree.Alike.and_words {R : Token → Token → Prop} {P : Token → Prop} : ∀ {t t' : Tree}, t.Alike R t' →
    (∀ word ∈ t.words, P word) → t.Alike (fun a b => R a b ∧ P a) t'
  | ⟨_, _⟩, ⟨_, _⟩, .node h, hP => .node (Child.Alike.and_words h hP)

theorem Child.Alike.and_words {R : Token → Token → Prop} {P : Token → Prop} : ∀ {cs cs' : List Child},
    List.Forall₂ (Child.Alike R) cs cs' → (∀ word ∈ Tree.wordsOfChildren cs, P word) →
      List.Forall₂ (Child.Alike fun a b => R a b ∧ P a) cs cs'
  | [], [], .nil, _ => .nil
  | .token a :: _, .token _ :: _, .cons (.token h) hs, hP =>
    .cons (.token ⟨h, hP a (by simp [Tree.wordsOfChildren])⟩)
      (Child.Alike.and_words hs fun word hw => hP word (by simp [Tree.wordsOfChildren, hw]))
  | .tree _ :: _, .tree _ :: _, .cons (.tree h) hs, hP =>
    .cons (.tree (h.and_words fun word hw => hP word (by simp [Tree.wordsOfChildren, hw])))
      (Child.Alike.and_words hs fun word hw => hP word (by simp [Tree.wordsOfChildren, hw]))

end

/-! ### Looking things up -/

theorem forall₂_getElem? {α β : Type} {R : α → β → Prop} {xs : List α} {ys : List β} (h : List.Forall₂ R xs ys)
    (i : Nat) : Option.Rel R xs[i]? ys[i]? := by
  induction h generalizing i with
  | nil => exact .none
  | cons hr _ ih =>
    cases i with
    | zero => exact .some hr
    | succ i => exact ih i

theorem rel_bind {α β γ δ : Type} {R : α → β → Prop} {S : γ → δ → Prop} {x : Option α} {y : Option β}
    {f : α → Option γ} {g : β → Option δ} (h : Option.Rel R x y) (hf : ∀ a b, R a b → Option.Rel S (f a) (g b)) :
    Option.Rel S (x.bind f) (y.bind g) := by
  cases h with
  | none => exact .none
  | some hr => exact hf _ _ hr

theorem rel_isSome {α β : Type} {R : α → β → Prop} {x : Option α} {y : Option β} (h : Option.Rel R x y) :
    y.isSome = x.isSome := by
  cases h <;> rfl

namespace Tree.Alike

variable {R : Token → Token → Prop} {t t' : Tree}

theorem tag (h : t.Alike R t') : t'.tag = t.tag := by
  obtain ⟨h⟩ := h
  rfl

theorem children (h : t.Alike R t') : List.Forall₂ (Child.Alike R) t.children t'.children := by
  obtain ⟨h⟩ := h
  exact h

theorem subtrees (h : t.Alike R t') : List.Forall₂ (Tree.Alike R) t.subtrees t'.subtrees := by
  refine List.rel_filterMap (fun c c' hc => ?_) h.children
  cases hc with
  | token => exact .none
  | tree hc => exact .some hc

theorem tokens (h : t.Alike R t') : List.Forall₂ R t.tokens t'.tokens := by
  refine List.rel_filterMap (fun c c' hc => ?_) h.children
  cases hc with
  | token hc => exact .some hc
  | tree => exact .none

theorem tokenAt? (h : t.Alike R t') (i : Nat) : Option.Rel R (t.tokenAt? i) (t'.tokenAt? i) := by
  refine rel_bind (forall₂_getElem? h.children i) fun c c' hc => ?_
  cases hc with
  | token hr => exact .some hr
  | tree => exact .none

theorem treeAt? (h : t.Alike R t') (i : Nat) : Option.Rel (Tree.Alike R) (t.treeAt? i) (t'.treeAt? i) := by
  refine rel_bind (forall₂_getElem? h.children i) fun c c' hc => ?_
  cases hc with
  | token => exact .none
  | tree hr => exact .some hr

theorem child? (h : t.Alike R t') (tag : String) : Option.Rel (Tree.Alike R) (t.child? tag) (t'.child? tag) :=
  forall₂_find? h.subtrees fun _ _ hc => by rw [hc.tag]

theorem fragmentChild? (h : t.Alike R t') (tag : String) :
    Option.Rel (Tree.Alike R) ((t.child? "service_fragment").bind (·.child? tag))
      ((t'.child? "service_fragment").bind (·.child? tag)) :=
  rel_bind (h.child? "service_fragment") fun _ _ hfragment => hfragment.child? tag

theorem childrenTagged (h : t.Alike R t') (tag : String) :
    List.Forall₂ (Tree.Alike R) (t.childrenTagged tag) (t'.childrenTagged tag) :=
  List.rel_filter (fun _ _ hc => by simp only [hc.tag]) h.subtrees

end Tree.Alike

mutual

theorem Tree.Alike.words {R : Token → Token → Prop} : ∀ {t t' : Tree}, t.Alike R t' → List.Forall₂ R t.words t'.words
  | ⟨_, _⟩, ⟨_, _⟩, .node h => Child.Alike.words h

theorem Child.Alike.words {R : Token → Token → Prop} : ∀ {cs cs' : List Child}, List.Forall₂ (Child.Alike R) cs cs' →
    List.Forall₂ R (Tree.wordsOfChildren cs) (Tree.wordsOfChildren cs')
  | [], [], .nil => .nil
  | .token _ :: _, .token _ :: _, .cons (.token h) hs => .cons h (Child.Alike.words hs)
  | .tree _ :: _, .tree _ :: _, .cons (.tree h) hs => List.rel_append h.words (Child.Alike.words hs)

end

mutual

theorem Tree.Alike.descendants {R : Token → Token → Prop} : ∀ {t t' : Tree}, t.Alike R t' →
    List.Forall₂ (Tree.Alike R) t.descendants t'.descendants
  | ⟨_, _⟩, ⟨_, _⟩, .node h => .cons (.node h) (Child.Alike.descendants h)

theorem Child.Alike.descendants {R : Token → Token → Prop} : ∀ {cs cs' : List Child},
    List.Forall₂ (Child.Alike R) cs cs' →
      List.Forall₂ (Tree.Alike R) (Tree.descendantsOfChildren cs) (Tree.descendantsOfChildren cs')
  | [], [], .nil => .nil
  | .token _ :: _, .token _ :: _, .cons (.token _) hs => by
    simpa only [Tree.descendantsOfChildren] using Child.Alike.descendants hs
  | .tree _ :: _, .tree _ :: _, .cons (.tree h) hs => List.rel_append h.descendants (Child.Alike.descendants hs)

end

namespace Tree.Alike

variable {R : Token → Token → Prop} {t t' : Tree}

theorem findAll (h : t.Alike R t') (tag : String) : List.Forall₂ (Tree.Alike R) (t.findAll tag) (t'.findAll tag) :=
  List.rel_filter (fun _ _ hc => by simp only [hc.tag]) h.descendants

end Tree.Alike

/-! ### Readings that agree -/

/-- If the first reading succeeds, so does the second, with a related answer. -/
def Agrees {ε ε' α β : Type} (R : α → β → Prop) (x : Except ε α) (y : Except ε' β) : Prop :=
  ∀ a, x = .ok a → ∃ b, y = .ok b ∧ R a b

namespace Agrees

variable {ε ε' α β γ δ : Type} {R : α → β → Prop} {S : γ → δ → Prop}

theorem ok {a : α} {b : β} (h : R a b) : Agrees R (.ok a : Except ε α) (.ok b : Except ε' β) := by
  rintro _ ⟨rfl⟩
  exact ⟨b, rfl, h⟩

theorem error {e : ε} {y : Except ε' β} : Agrees R (.error e) y := by
  rintro _ ⟨⟩

theorem mono {R' : α → β → Prop} {x : Except ε α} {y : Except ε' β} (h : Agrees R x y) (hR : ∀ a b, R a b → R' a b) :
    Agrees R' x y := by
  intro a ha
  obtain ⟨b, hb, hr⟩ := h a ha
  exact ⟨b, hb, hR a b hr⟩

theorem bind {x : Except ε α} {y : Except ε' β} {f : α → Except ε γ} {g : β → Except ε' δ} (h : Agrees R x y)
    (hf : ∀ a b, R a b → Agrees S (f a) (g b)) : Agrees S (x >>= f) (y >>= g) := by
  intro c hc
  obtain ⟨a, ha, hfa⟩ := except_bind_eq_ok.mp hc
  obtain ⟨b, hb, hr⟩ := h a ha
  obtain ⟨d, hd, hs⟩ := hf a b hr c hfa
  exact ⟨d, except_bind_eq_ok.mpr ⟨b, hb, hd⟩, hs⟩

theorem lift {x : Except Missing α} {y : Except Missing β} (h : Agrees R x y) :
    Agrees R (liftM x : Except Malformed α) (liftM y : Except Malformed β) := by
  intro a ha
  cases x with
  | error e => cases ha
  | ok a' =>
    obtain ⟨b, rfl, hr⟩ := h a' rfl
    cases ha
    exact ⟨b, rfl, hr⟩

theorem mapM {f : α → Except ε γ} {g : β → Except ε' δ} {xs : List α} {ys : List β} (h : List.Forall₂ R xs ys)
    (hf : ∀ a b, R a b → Agrees S (f a) (g b)) : Agrees (List.Forall₂ S) (xs.mapM f) (ys.mapM g) := by
  induction h with
  | nil => exact .ok .nil
  | cons hr _ ih =>
    rw [List.mapM_cons, List.mapM_cons]
    exact (hf _ _ hr).bind fun _ _ hs => ih.bind fun _ _ hss => .ok (.cons hs hss)

end Agrees

/-- The same thing, with a property. -/
def Same {α : Type} (P : α → Prop) (a b : α) : Prop :=
  b = a ∧ P a

/-- A segment that names no variable of an operand. -/
def Segment.Plain : Segment → Prop
  | .name text => Text.isOperandName text = false
  | .computed _ => True

/-- A value that is no path with a variable of an operand. -/
def Value.Plain : Value → Prop
  | .path segments => ∀ segment ∈ segments, segment.Plain
  | _ => True

theorem Value.plain_arguments (arguments : List Argument) : ∀ v ∈ arguments.map Value.argument, v.Plain := by
  intro v hv
  obtain ⟨argument, -, rfl⟩ := List.mem_map.mp hv
  trivial

/-- The same token at another place, which mentions no variable of an operand. -/
def Token.Rewritten (f : UInt32 → UInt32) (a b : Token) : Prop :=
  a.Moved f b ∧ Text.Clean a.value

theorem Text.Clean.isOperandName {text : String} (h : Text.Clean text) : Text.isOperandName text = false := by
  refine Bool.eq_false_of_not_eq_true fun hp => h ?_
  exact (List.isPrefixOf_iff_prefix.mp hp).isInfix

theorem Text.unquoteChars_infix (cs : List Char) : Text.unquoteChars cs <:+: cs := by
  cases cs with
  | nil => exact List.infix_refl _
  | cons first rest =>
    rw [Text.unquoteChars]
    split
    · exact (List.dropLast_prefix rest).isInfix.trans (List.suffix_cons first rest).isInfix
    · exact List.infix_refl _

theorem Text.Clean.unquote {text : String} (h : Text.Clean text) : Text.Clean (Text.unquote text) := by
  have htext : (Text.unquote text).toList = Text.unquoteChars text.toList := String.toList_ofList
  intro hfound
  exact h (hfound.trans (htext ▸ Text.unquoteChars_infix _))

/-! ### Looking up what must be there -/

namespace Tree.Alike

variable {f : UInt32 → UInt32} {R : Token → Token → Prop} {t t' : Tree}

theorem tokenAt (h : t.Alike R t') (i : Nat) : Agrees R (t.tokenAt i) (t'.tokenAt i) := by
  have hfound := h.tokenAt? i
  unfold Tree.tokenAt
  generalize t.tokenAt? i = found, t'.tokenAt? i = found' at hfound
  cases hfound with
  | none => exact .error
  | some hr => exact .ok hr

theorem child (h : t.Alike R t') (tag : String) : Agrees (Tree.Alike R) (t.child tag) (t'.child tag) := by
  have hfound := h.child? tag
  unfold Tree.child
  generalize t.child? tag = found, t'.child? tag = found' at hfound
  cases hfound with
  | none => exact .error
  | some hr => exact .ok hr

theorem leadingTree (h : t.Alike R t') : Agrees (Tree.Alike R) t.leadingTree t'.leadingTree := by
  have hfound := h.treeAt? 0
  unfold Tree.leadingTree
  generalize t.treeAt? 0 = found, t'.treeAt? 0 = found' at hfound
  cases hfound with
  | none => exact .error
  | some hr => exact .ok hr

theorem innerOperand (h : t.Alike R t') : Agrees (Tree.Alike R) t.innerOperand t'.innerOperand := by
  have hbase := h.child? "base_expression"
  unfold Tree.innerOperand
  generalize t.child? "base_expression" = base, t'.child? "base_expression" = base' at hbase
  cases hbase with
  | none => exact h.leadingTree
  | some hr => exact hr.leadingTree

theorem tokenOf? (h : t.Alike (Token.Rewritten f) t') (kind : String) :
    Option.Rel (Token.Rewritten f) (t.tokenOf? kind) (t'.tokenOf? kind) :=
  forall₂_find? h.tokens fun _ _ hw => by rw [hw.1.kind]

theorem nameToken (h : t.Alike (Token.Rewritten f) t') : Agrees (Token.Rewritten f) t.nameToken t'.nameToken := by
  have hfound := h.tokenOf? "NAME"
  unfold Tree.nameToken
  generalize t.tokenOf? "NAME" = found, t'.tokenOf? "NAME" = found' at hfound
  cases hfound with
  | none => exact .error
  | some hr => exact .ok hr

theorem line (h : t.Alike (Token.Rewritten f) t') : Agrees (fun n n' => n' = f n) t.line t'.line := by
  have hwords := h.words
  unfold Tree.line
  rw [position?_eq_words, position?_eq_words]
  generalize t.words = ws, t'.words = ws' at hwords
  cases hwords with
  | nil => exact .error
  | cons hw _ => exact .ok hw.1.line

end Tree.Alike

/-! ### Reading values -/

namespace Tree

variable {f : UInt32 → UInt32} {t t' : Tree}

theorem readString_agrees (h : t.Alike (Token.Rewritten f) t') :
    Agrees (Same Value.Plain) t.readString t'.readString :=
  (h.tokenAt 0).lift.bind fun word word' hw => .ok ⟨by rw [hw.1.value], trivial⟩

theorem readNumber_agrees (h : t.Alike (Token.Rewritten f) t') :
    Agrees (Same Value.Plain) t.readNumber t'.readNumber := by
  refine (h.tokenAt 0).lift.bind fun word word' hw => ?_
  have hnumber : numberOf? word' = numberOf? word := by rw [numberOf?, numberOf?, hw.1.kind, hw.1.value]
  rw [hnumber]
  cases numberOf? word with
  | none => exact .error
  | some number => exact .ok ⟨rfl, trivial⟩

theorem readBoolean_agrees (h : t.Alike (Token.Rewritten f) t') :
    Agrees (Same Value.Plain) t.readBoolean t'.readBoolean :=
  (h.tokenAt 0).lift.bind fun word word' hw => .ok ⟨by rw [hw.1.kind, hw.1.value], trivial⟩

theorem readType_agrees (h : t.Alike (Token.Rewritten f) t') :
    Agrees (Same Value.Plain) t.readType t'.readType :=
  (h.tokenAt 0).lift.bind fun word word' hw => .ok ⟨by rw [hw.1.value], trivial⟩

theorem operatorsOf_agrees {cs cs' : List Child} (h : List.Forall₂ (Child.Alike (Token.Rewritten f)) cs cs') :
    Agrees Eq (operatorsOf cs) (operatorsOf cs') := by
  induction h with
  | nil => exact .ok rfl
  | cons hc _ ih =>
    cases hc with
    | token hw => exact ih.bind fun _ _ hs => .ok (by rw [hw.1.value, hs])
    | tree ht =>
      rw [operatorsOf, operatorsOf, ht.tag]
      split
      · exact (ht.tokenAt 0).lift.bind fun _ _ hw => ih.bind fun _ _ hs => .ok (by rw [hw.1.value, hs])
      · exact ih

theorem readOperators_agrees (h : t.Alike (Token.Rewritten f) t') : Agrees Eq t.readOperators t'.readOperators := by
  have hlength : t'.operands.length = t.operands.length :=
    (List.rel_filter (fun _ _ hc => by simp only [hc.tag]) h.subtrees).length_eq.symm
  refine (operatorsOf_agrees h.children).bind fun operators operators' hs => ?_
  rw [hs, hlength]
  split
  · exact .ok rfl
  · exact .error

theorem readCommand_agrees (h : t.Alike (Token.Rewritten f) t') : Agrees Eq t.readCommand t'.readCommand := by
  unfold readCommand
  have hcommand := h.fragmentChild? "command"
  generalize (t.child? _).bind _ = command, (t'.child? _).bind _ = command' at hcommand
  cases hcommand with
  | none => exact .ok rfl
  | some hcommand => exact (hcommand.tokenAt 0).bind fun _ _ hw => .ok (by rw [hw.1.value])

theorem readCallee_agrees (h : t.Alike (Token.Rewritten f) t') : Agrees Eq t.readCallee t'.readCallee := by
  refine (h.child "path").lift.bind fun _ _ hpath => (hpath.tokenAt 0).lift.bind fun _ _ hw => ?_
  exact (readCommand_agrees h).lift.bind fun _ _ hs => .ok (by rw [hw.1.value, hs])

theorem argumentName?_alike (h : t.Alike (Token.Rewritten f) t') : t'.argumentName? = t.argumentName? := by
  have hfound := h.tokenAt? 0
  unfold argumentName?
  generalize t.tokenAt? 0 = found, t'.tokenAt? 0 = found' at hfound
  cases hfound with
  | none => rfl
  | some hw =>
    rw [Option.filter_some, Option.filter_some, hw.1.kind]
    split
    · rw [Option.map_some, Option.map_some, hw.1.value]
    · rfl

theorem plain_conjunction {vs : List Value} {v : Value} (hvs : ∀ v ∈ vs, v.Plain)
    (h : t.conjunction vs = .ok v) : v.Plain := by
  cases vs with
  | nil => cases h
  | cons first rest =>
    obtain rfl := Except.ok.inj h
    cases rest using List.reverseRecOn with
    | nil => exact hvs first List.mem_cons_self
    | append_singleton => simp [Value.binary, Value.Plain]

theorem conjunction_agrees {vs vs' : List Value} (h : Same (fun vs => ∀ v ∈ vs, v.Plain) vs vs') :
    Agrees (Same Value.Plain) (t.conjunction vs) (t'.conjunction vs') := by
  obtain ⟨rfl, hplain⟩ := h
  intro v hv
  refine ⟨v, ?_, rfl, plain_conjunction hplain hv⟩
  cases vs' with
  | nil => cases hv
  | cons first rest => exact hv

theorem plain_adjacent (left : Value) (steps : List (String × Value)) : ∀ v ∈ adjacent left steps, v.Plain := by
  induction steps generalizing left with
  | nil => simp [adjacent]
  | cons step steps ih =>
    rw [adjacent, List.forall_mem_cons]
    exact ⟨trivial, ih step.2⟩

theorem plain_applyOperators (operators : List String) {vs : List Value} (h : ∀ v ∈ vs, v.Plain) :
    ∀ v ∈ applyOperators operators vs, v.Plain := by
  cases vs with
  | nil => simp [applyOperators]
  | cons first rest =>
    rw [applyOperators]
    split
    · exact plain_adjacent _ _
    · rw [List.forall_mem_singleton]
      generalize operators.zip rest = steps
      cases steps using List.reverseRecOn with
      | nil => exact h first List.mem_cons_self
      | append_singleton => simp [Value.binary, Value.Plain]

/-- Children that are alike, with tokens that mention no variable of an operand. -/
abbrev ChildrenAlike (f : UInt32 → UInt32) : List Child → List Child → Prop :=
  List.Forall₂ (Child.Alike (Token.Rewritten f))

-- The readers descend along the trees, and these lemmas descend with them.
mutual

theorem readChild_agrees : ∀ {c c' : Child}, c.Alike (Token.Rewritten f) c' →
    Agrees (Same Value.Plain) (readChild c) (readChild c')
  | .token _, .token _, .token _ => by
    rw [readChild, readChild]
    exact .error
  | .tree t, .tree t', .tree h => by
    rw [readChild, readChild, h.tag]
    cases ValueKind.ofTag? t.tag with
    | none => exact .error
    | some kind =>
      cases kind with
      | literal => exact readLiteral_agrees h
      | entity => exact readEntity_agrees h
      | path => exact readPath_agrees h
      | expression => exact (readConjuncts_agrees h).bind fun _ _ hs => conjunction_agrees hs
      | string => exact readString_agrees h
      | number => exact readNumber_agrees h
      | boolean => exact readBoolean_agrees h
      | list => exact readList_agrees h
      | dict => exact readDict_agrees h
      | type => exact readType_agrees h
      | service => exact readCall_agrees h
termination_by structural c => c

theorem readLiteral_agrees : ∀ {t t' : Tree}, t.Alike (Token.Rewritten f) t' →
    Agrees (Same Value.Plain) t.readLiteral t'.readLiteral
  | ⟨_, []⟩, ⟨_, []⟩, .node .nil => by
    rw [readLiteral]
    exact .error
  | ⟨_, .token word :: _⟩, ⟨_, .token word' :: _⟩, .node (.cons (.token hw) hs) => by
    rw [readLiteral, readLiteral, hw.1.kind]
    split
    · exact .ok ⟨by rw [Token.fileValue, Token.fileValue, hw.1.value], trivial⟩
    · split
      · refine (segmentsOf_agrees hs).bind fun ss ss' hss => .ok ⟨by rw [hw.1.value, hss.1], ?_⟩
        exact List.forall_mem_cons.mpr ⟨hw.2.isOperandName, hss.2⟩
      · exact .error
  | ⟨tag, .tree item :: rest⟩, ⟨_, .tree item' :: rest'⟩, .node (.cons (.tree hitem) hs) => by
    have ht : Tree.Alike (Token.Rewritten f) ⟨tag, .tree item :: rest⟩ ⟨tag, .tree item' :: rest'⟩ :=
      .node (.cons (.tree hitem) hs)
    rw [readLiteral, readLiteral, hitem.tag, rel_isSome (ht.child? "service_fragment")]
    split
    · split
      · refine (readCallee_agrees ht).bind fun _ _ hcallee => (fragmentArguments_agrees hs).bind fun _ _ hargs => ?_
        exact .ok ⟨by rw [hcallee, hargs], trivial⟩
      · exact readPath_agrees hitem
    · exact readChild_agrees (.tree hitem)
termination_by structural t => t

theorem readEntity_agrees : ∀ {t t' : Tree}, t.Alike (Token.Rewritten f) t' →
    Agrees (Same Value.Plain) t.readEntity t'.readEntity
  | ⟨_, []⟩, ⟨_, []⟩, .node .nil => .error
  | ⟨_, .token _ :: _⟩, ⟨_, .token _ :: _⟩, .node (.cons (.token _) _) => .error
  | ⟨_, .tree _ :: _⟩, ⟨_, .tree _ :: _⟩, .node (.cons (.tree hitem) _) => by
    rw [readEntity, readEntity]
    exact readChild_agrees (.tree hitem)
termination_by structural t => t

theorem readList_agrees : ∀ {t t' : Tree}, t.Alike (Token.Rewritten f) t' →
    Agrees (Same Value.Plain) t.readList t'.readList
  | ⟨_, _⟩, ⟨_, _⟩, .node hs => by
    rw [readList, readList]
    exact (itemsOf_agrees hs).bind fun _ _ hitems => .ok ⟨by rw [hitems], trivial⟩
termination_by structural t => t

theorem itemsOf_agrees : ∀ {cs cs' : List Child}, ChildrenAlike f cs cs' → Agrees Eq (itemsOf cs) (itemsOf cs')
  | [], [], .nil => .ok rfl
  | .token _ :: _, .token _ :: _, .cons (.token _) hs => by
    rw [itemsOf, itemsOf]
    exact itemsOf_agrees hs
  | .tree _ :: _, .tree _ :: _, .cons (.tree h) hs => by
    rw [itemsOf, itemsOf]
    exact (readChild_agrees (.tree h)).bind fun _ _ hv => (itemsOf_agrees hs).bind fun _ _ hvs => .ok (by rw [hv.1, hvs])
termination_by structural cs => cs

theorem readDict_agrees : ∀ {t t' : Tree}, t.Alike (Token.Rewritten f) t' →
    Agrees (Same Value.Plain) t.readDict t'.readDict
  | ⟨_, _⟩, ⟨_, _⟩, .node hs => by
    rw [readDict, readDict]
    exact (entriesOf_agrees hs).bind fun _ _ hentries => .ok ⟨by rw [hentries], trivial⟩
termination_by structural t => t

theorem entriesOf_agrees : ∀ {cs cs' : List Child}, ChildrenAlike f cs cs' → Agrees Eq (entriesOf cs) (entriesOf cs')
  | [], [], .nil => .ok rfl
  | .token _ :: _, .token _ :: _, .cons (.token _) hs => by
    rw [entriesOf, entriesOf]
    exact entriesOf_agrees hs
  | .tree _ :: _, .tree _ :: _, .cons (.tree h) hs => by
    rw [entriesOf, entriesOf, h.tag]
    split
    · exact (readEntry_agrees h).bind fun _ _ he => (entriesOf_agrees hs).bind fun _ _ hes => .ok (by rw [he, hes])
    · exact entriesOf_agrees hs
termination_by structural cs => cs

theorem readEntry_agrees : ∀ {t t' : Tree}, t.Alike (Token.Rewritten f) t' → Agrees Eq t.readEntry t'.readEntry
  | ⟨_, []⟩, ⟨_, []⟩, .node .nil => .error
  | ⟨_, .token _ :: _⟩, ⟨_, .token _ :: _⟩, .node (.cons (.token _) _) => .error
  | ⟨_, [.tree _]⟩, ⟨_, [.tree _]⟩, .node (.cons (.tree hkey) .nil) => by
    rw [readEntry, readEntry, hkey.tag]
    split
    · exact (readChild_agrees (.tree hkey)).bind fun _ _ _ => .error
    · exact .error
  | ⟨_, .tree _ :: .token _ :: _⟩, ⟨_, .tree _ :: .token _ :: _⟩, .node (.cons (.tree hkey) (.cons (.token _) _)) => by
    rw [readEntry, readEntry, hkey.tag]
    split
    · exact (readChild_agrees (.tree hkey)).bind fun _ _ _ => .error
    · exact .error
  | ⟨_, .tree _ :: .tree _ :: _⟩, ⟨_, .tree _ :: .tree _ :: _⟩, .node (.cons (.tree hkey) (.cons (.tree hvalue) _)) => by
    rw [readEntry, readEntry, hkey.tag]
    split
    · refine (readChild_agrees (.tree hkey)).bind fun _ _ hname => ?_
      exact (readChild_agrees (.tree hvalue)).bind fun _ _ hv => .ok (by rw [hname.1, hv.1])
    · exact .error
termination_by structural t => t

theorem readPath_agrees : ∀ {t t' : Tree}, t.Alike (Token.Rewritten f) t' →
    Agrees (Same Value.Plain) t.readPath t'.readPath
  | ⟨_, _⟩, ⟨_, _⟩, .node hs => by
    rw [readPath, readPath]
    exact (segmentsOf_agrees hs).bind fun _ _ hss => .ok ⟨by rw [hss.1], hss.2⟩
termination_by structural t => t

theorem segmentsOf_agrees : ∀ {cs cs' : List Child}, ChildrenAlike f cs cs' →
    Agrees (Same fun ss => ∀ segment ∈ ss, segment.Plain) (segmentsOf cs) (segmentsOf cs')
  | [], [], .nil => .ok ⟨rfl, by simp⟩
  | .token _ :: _, .token _ :: _, .cons (.token hw) hs => by
    rw [segmentsOf, segmentsOf]
    refine (segmentsOf_agrees hs).bind fun _ _ hss => .ok ⟨by rw [hw.1.value, hss.1], ?_⟩
    exact List.forall_mem_cons.mpr ⟨hw.2.isOperandName, hss.2⟩
  | .tree _ :: _, .tree _ :: _, .cons (.tree h) hs => by
    rw [segmentsOf, segmentsOf]
    refine (readSegment_agrees h).bind fun _ _ hsegment => (segmentsOf_agrees hs).bind fun _ _ hss => ?_
    exact .ok ⟨by rw [hsegment.1, hss.1], List.forall_mem_cons.mpr ⟨hsegment.2, hss.2⟩⟩
termination_by structural cs => cs

theorem readSegment_agrees : ∀ {t t' : Tree}, t.Alike (Token.Rewritten f) t' →
    Agrees (Same Segment.Plain) t.readSegment t'.readSegment
  | ⟨_, []⟩, ⟨_, []⟩, .node .nil => .error
  | ⟨_, .token _ :: _⟩, ⟨_, .token _ :: _⟩, .node (.cons (.token hw) _) => by
    rw [readSegment, readSegment]
    exact .ok ⟨by rw [hw.1.value], hw.2.isOperandName⟩
  | ⟨_, .tree _ :: _⟩, ⟨_, .tree _ :: _⟩, .node (.cons (.tree h) _) => by
    rw [readSegment, readSegment]
    exact readSubscript_agrees h
termination_by structural t => t

theorem readSubscript_agrees : ∀ {t t' : Tree}, t.Alike (Token.Rewritten f) t' →
    Agrees (Same Segment.Plain) t.readSubscript t'.readSubscript
  | ⟨tag, cs⟩, ⟨_, cs'⟩, .node hs => by
    have ht : Tree.Alike (Token.Rewritten f) ⟨tag, cs⟩ ⟨tag, cs'⟩ := .node hs
    have hinline := inlineSubscript_agrees tag hs
    unfold readSubscript
    split
    · exact (ht.tokenAt 0).lift.bind fun _ _ hw => .ok ⟨by rw [hw.1.value], hw.2.unquote.isOperandName⟩
    · split
      · exact (segmentsOf_agrees hs).bind fun _ _ hss => .ok ⟨by rw [hss.1], trivial⟩
      · split
        · exact hinline
        · exact .error
termination_by structural t => t

theorem inlineSubscript_agrees (tag : String) : ∀ {cs cs' : List Child}, ChildrenAlike f cs cs' →
    Agrees (Same Segment.Plain)
      (match cs with
        | .tree operand :: _ => do return .computed (← readChild (.tree operand))
        | _ => .error (.unexpected ⟨tag, cs⟩))
      (match cs' with
        | .tree operand :: _ => do return .computed (← readChild (.tree operand))
        | _ => .error (.unexpected ⟨tag, cs'⟩))
  | [], [], .nil => .error
  | .token _ :: _, .token _ :: _, .cons (.token _) _ => .error
  | .tree _ :: _, .tree _ :: _, .cons (.tree h) _ =>
    (readChild_agrees (.tree h)).bind fun _ _ hv => .ok ⟨by rw [hv.1], trivial⟩
termination_by structural cs => cs

theorem readConjuncts_agrees : ∀ {t t' : Tree}, t.Alike (Token.Rewritten f) t' →
    Agrees (Same fun vs => ∀ v ∈ vs, v.Plain) t.readConjuncts t'.readConjuncts
  | ⟨tag, cs⟩, ⟨_, cs'⟩, .node hs => by
    have ht : Tree.Alike (Token.Rewritten f) ⟨tag, cs⟩ ⟨tag, cs'⟩ := .node hs
    rw [readConjuncts, readConjuncts]
    refine (readOperators_agrees ht).bind fun operators operators' hoperators => ?_
    subst hoperators
    cases operators with
    | nil => exact loneConjuncts_agrees hs
    | cons operator operators =>
      exact (operandsOf_agrees hs).bind fun _ _ hvs => .ok ⟨by rw [hvs.1], plain_applyOperators _ hvs.2⟩
termination_by structural t => t

theorem loneConjuncts_agrees : ∀ {cs cs' : List Child}, ChildrenAlike f cs cs' →
    Agrees (Same fun vs => ∀ v ∈ vs, v.Plain) (loneConjuncts cs) (loneConjuncts cs')
  | [], [], .nil => .ok ⟨rfl, by simp⟩
  | .token _ :: _, .token _ :: _, .cons (.token _) hs => by
    rw [loneConjuncts, loneConjuncts]
    exact loneConjuncts_agrees hs
  | .tree _ :: _, .tree _ :: _, .cons (.tree h) _ => by
    rw [loneConjuncts, loneConjuncts, h.tag]
    split
    · exact readConjuncts_agrees h
    · refine (readChild_agrees (.tree h)).bind fun _ _ hv => .ok ⟨by rw [hv.1], ?_⟩
      exact List.forall_mem_singleton.mpr hv.2
termination_by structural cs => cs

theorem operandsOf_agrees : ∀ {cs cs' : List Child}, ChildrenAlike f cs cs' →
    Agrees (Same fun vs => ∀ v ∈ vs, v.Plain) (operandsOf cs) (operandsOf cs')
  | [], [], .nil => .ok ⟨rfl, by simp⟩
  | .token _ :: _, .token _ :: _, .cons (.token _) hs => by
    rw [operandsOf, operandsOf]
    exact operandsOf_agrees hs
  | .tree _ :: _, .tree _ :: _, .cons (.tree h) hs => by
    rw [operandsOf, operandsOf, h.tag]
    split
    · exact operandsOf_agrees hs
    · refine (readChild_agrees (.tree h)).bind fun _ _ hv => (operandsOf_agrees hs).bind fun _ _ hvs => ?_
      exact .ok ⟨by rw [hv.1, hvs.1], List.forall_mem_cons.mpr ⟨hv.2, hvs.2⟩⟩
termination_by structural cs => cs

theorem readCall_agrees : ∀ {t t' : Tree}, t.Alike (Token.Rewritten f) t' →
    Agrees (Same Value.Plain) t.readCall t'.readCall
  | ⟨tag, cs⟩, ⟨_, cs'⟩, .node hs => by
    have ht : Tree.Alike (Token.Rewritten f) ⟨tag, cs⟩ ⟨tag, cs'⟩ := .node hs
    rw [readCall, readCall]
    refine (readCallee_agrees ht).bind fun _ _ hcallee => (fragmentArguments_agrees hs).bind fun _ _ hargs => ?_
    exact .ok ⟨by rw [hcallee, hargs], trivial⟩
termination_by structural t => t

theorem fragmentArguments_agrees : ∀ {cs cs' : List Child}, ChildrenAlike f cs cs' →
    Agrees Eq (fragmentArguments cs) (fragmentArguments cs')
  | [], [], .nil => .ok rfl
  | .token _ :: _, .token _ :: _, .cons (.token _) hs => by
    rw [fragmentArguments, fragmentArguments]
    exact fragmentArguments_agrees hs
  | .tree _ :: _, .tree _ :: _, .cons (.tree h) hs => by
    rw [fragmentArguments, fragmentArguments, h.tag]
    split
    · exact readChildArguments_agrees h
    · exact fragmentArguments_agrees hs
termination_by structural cs => cs

theorem readChildArguments_agrees : ∀ {t t' : Tree}, t.Alike (Token.Rewritten f) t' →
    Agrees Eq t.readChildArguments t'.readChildArguments
  | ⟨_, _⟩, ⟨_, _⟩, .node hs => by
    rw [readChildArguments, readChildArguments]
    exact argumentsOf_agrees hs
termination_by structural t => t

theorem argumentsOf_agrees : ∀ {cs cs' : List Child}, ChildrenAlike f cs cs' →
    Agrees Eq (argumentsOf cs) (argumentsOf cs')
  | [], [], .nil => .ok rfl
  | .token _ :: _, .token _ :: _, .cons (.token _) hs => by
    rw [argumentsOf, argumentsOf]
    exact argumentsOf_agrees hs
  | .tree _ :: _, .tree _ :: _, .cons (.tree h) hs => by
    rw [argumentsOf, argumentsOf, h.tag]
    split
    · exact (readArgument_agrees h).bind fun _ _ ha => (argumentsOf_agrees hs).bind fun _ _ has => .ok (by rw [ha, has])
    · exact argumentsOf_agrees hs
termination_by structural cs => cs

theorem readArgument_agrees : ∀ {t t' : Tree}, t.Alike (Token.Rewritten f) t' →
    Agrees Eq t.readArgument t'.readArgument
  | ⟨tag, cs⟩, ⟨_, cs'⟩, .node hs => by
    have ht : Tree.Alike (Token.Rewritten f) ⟨tag, cs⟩ ⟨tag, cs'⟩ := .node hs
    have hlast := lastValue?_agrees hs
    rw [readArgument, readArgument, argumentName?_alike ht]
    generalize lastValue? cs = last, lastValue? cs' = last' at hlast
    cases hlast with
    | none => exact .error
    | some hvalue => exact hvalue.bind fun _ _ hv => .ok (by rw [hv.1])
termination_by structural t => t

theorem lastValue?_agrees : ∀ {cs cs' : List Child}, ChildrenAlike f cs cs' →
    Option.Rel (Agrees (Same Value.Plain)) (lastValue? cs) (lastValue? cs')
  | [], [], .nil => .none
  | .token _ :: cs, .token _ :: cs', .cons (.token _) hs => by
    have hrest := lastValue?_agrees hs
    show Option.Rel _
      (match lastValue? cs with
        | some value => some value
        | none => none)
      (match lastValue? cs' with
        | some value => some value
        | none => none)
    generalize lastValue? cs = last, lastValue? cs' = last' at hrest
    cases hrest with
    | none => exact .none
    | some hvalue => exact .some hvalue
  | .tree t :: cs, .tree t' :: cs', .cons (.tree h) hs => by
    have hrest := lastValue?_agrees hs
    show Option.Rel _
      (match lastValue? cs with
        | some value => some value
        | none => some (readChild (.tree t)))
      (match lastValue? cs' with
        | some value => some value
        | none => some (readChild (.tree t')))
    generalize lastValue? cs = last, lastValue? cs' = last' at hrest
    cases hrest with
    | none => exact .some (readChild_agrees (.tree h))
    | some hvalue => exact .some hvalue
termination_by structural cs => cs

end

theorem readArguments_agrees (h : t.Alike (Token.Rewritten f) t') : Agrees Eq t.readArguments t'.readArguments := by
  unfold readArguments
  rw [h.tag]
  split
  · exact (readArgument_agrees h).bind fun _ _ ha => .ok (by rw [ha])
  · exact readChildArguments_agrees h

theorem readMutation_agrees (h : t.Alike (Token.Rewritten f) t') :
    Agrees (Same Value.Plain) t.readMutation t'.readMutation :=
  (h.tokenAt 0).lift.bind fun _ _ hw => (readArguments_agrees h).bind fun _ _ ha =>
    .ok ⟨by rw [hw.1.value, ha], trivial⟩

theorem readParameters_agrees (h : t.Alike (Token.Rewritten f) t') : Agrees Eq t.readParameters t'.readParameters := by
  have hall : Agrees (List.Forall₂ Eq) t.readParameters t'.readParameters := by
    refine .mapM (h.childrenTagged "function_argument") fun parameter parameter' hparameter => ?_
    refine (hparameter.child "types").lift.bind fun _ _ htype => (hparameter.tokenAt 0).lift.bind fun _ _ hw => ?_
    exact (readType_agrees htype).bind fun _ _ hv => .ok (by rw [hw.1.value, hv.1])
  exact hall.mono fun _ _ hs => List.forall₂_eq_eq_eq ▸ hs

theorem readChain_agrees (h : t.Alike (Token.Rewritten f) t') :
    Agrees (Same fun vs => ∀ v ∈ vs, v.Plain) t.readChain t'.readChain := by
  have hall : Agrees (List.Forall₂ (Same Value.Plain)) t.readChain t'.readChain :=
    .mapM (h.findAll "chained_mutation") fun _ _ hchained =>
      (hchained.child "mutation_fragment").lift.bind fun _ _ hfragment => readMutation_agrees hfragment
  refine hall.mono fun vs vs' hs => ?_
  induction hs with
  | nil => exact ⟨rfl, by simp⟩
  | cons hv _ ih => exact ⟨by rw [hv.1, ih.1], List.forall_mem_cons.mpr ⟨hv.2, ih.2⟩⟩

theorem outputNames?_alike {output output' : Option Tree}
    (h : Option.Rel (Tree.Alike (Token.Rewritten f)) output output') :
    outputNames? output' = outputNames? output := by
  cases h with
  | none => rfl
  | some h =>
    exact congrArg some (forall₂_map (f := Token.value) (fun hw => hw.1.value) h.tokens)

theorem isLoneOperand_alike {R : Token → Token → Prop} : ∀ {t t' : Tree}, t.Alike R t' →
    t'.isLoneOperand = t.isLoneOperand
  | ⟨_, []⟩, ⟨_, []⟩, .node .nil => rfl
  | ⟨_, .token _ :: _⟩, ⟨_, .token _ :: _⟩, .node (.cons (.token _) _) => rfl
  | ⟨_, .tree ⟨_, _⟩ :: _ :: _⟩, ⟨_, .tree ⟨_, _⟩ :: _ :: _⟩, .node (.cons (.tree _) (.cons _ _)) => rfl
  | ⟨_, [.tree ⟨_, _⟩]⟩, ⟨_, [.tree ⟨_, _⟩]⟩, .node (.cons (.tree (.node h)) .nil) => by
    rw [isLoneOperand, isLoneOperand, isLoneOperand_alike (.node h)]
termination_by structural t => t

theorem readReturns_agrees (h : t.Alike (Token.Rewritten f) t') :
    Agrees Eq (LowerM.readReturns t) (LowerM.readReturns t') := by
  have houtput := h.child? "function_output"
  unfold LowerM.readReturns
  generalize t.child? "function_output" = output, t'.child? "function_output" = output' at houtput
  cases houtput with
  | none => exact .ok rfl
  | some houtput =>
    refine (Agrees.mapM (houtput.childrenTagged "types") fun _ _ htype => htype.tokenAt 0).bind fun _ _ hnames => ?_
    exact .ok (congrArg some (forall₂_map (f := Token.value) (fun hw => hw.1.value) hnames).symm)

theorem readThrown_agrees (h : t.Alike (Token.Rewritten f) t') :
    Agrees (Same fun vs => ∀ v ∈ vs, v.Plain) t.readThrown t'.readThrown := by
  have hsubject := forall₂_getElem? h.subtrees 0
  have hname := h.tokenOf? "NAME"
  unfold readThrown
  rw [List.head?_eq_getElem?, List.head?_eq_getElem?]
  generalize t.subtrees[0]? = subject, t'.subtrees[0]? = subject' at hsubject
  cases hsubject with
  | some hsubject =>
    refine (readChild_agrees (.tree hsubject)).bind fun _ _ hv => .ok ⟨by rw [hv.1], ?_⟩
    exact List.forall_mem_singleton.mpr hv.2
  | none =>
    generalize t.tokenOf? "NAME" = name, t'.tokenOf? "NAME" = name' at hname
    cases hname with
    | none => exact .ok ⟨rfl, by simp⟩
    | some hw =>
      refine .ok ⟨by rw [hw.1.value], List.forall_mem_singleton.mpr ?_⟩
      exact List.forall_mem_singleton.mpr hw.2.isOperandName

theorem checkNames_agrees (h : t.Alike (Token.Rewritten f) t') : Agrees Eq t.checkNames t'.checkNames := by
  have hnames : t'.spelledNames = t.spelledNames := by
    have hall : List.Forall₂ Eq t.spelledNames t'.spelledNames := by
      refine List.rel_filterMap (fun c c' hc => ?_) h.children
      have hword : ∀ {word word' : Option Token}, Option.Rel (Token.Rewritten f) word word' →
          Option.Rel Eq ((word.filter (·.kind == "NAME")).map (·.value))
            ((word'.filter (·.kind == "NAME")).map (·.value)) := by
        rintro _ _ (⟨hw⟩ | _)
        · rw [Option.filter_some, Option.filter_some, hw.1.kind]
          split
          · exact .some hw.1.value.symm
          · exact .none
        · exact .none
      cases hc with
      | token hw => exact hword (.some hw)
      | tree ht => exact hword (ht.tokenAt? 0)
    exact (List.forall₂_eq_eq_eq ▸ hall : t.spelledNames = t'.spelledNames).symm
  intro u hu
  refine ⟨u, ?_, rfl⟩
  rw [checkNames] at hu ⊢
  rw [hnames]
  generalize t.spelledNames = names at hu
  induction names with
  | nil => exact hu
  | cons name names ih =>
    obtain ⟨⟨⟩, hname, hrest⟩ := except_bind_eq_ok.mp hu
    refine except_bind_eq_ok.mpr ⟨(), ?_, ih hrest⟩
    obtain ⟨⟨⟩, hslash, hdash⟩ := except_bind_eq_ok.mp hname
    refine except_bind_eq_ok.mpr ⟨(), ?_, ?_⟩
    · rw [ensure, Tree.ensure_ok hslash]
      rfl
    · rw [ensure, Tree.ensure_ok hdash]
      rfl

end Tree

/-! ### Paths in dotted form -/

theorem infix_append_cons {α : Type} {l a b : List α} {c : α} (hc : c ∉ l) (h : l <:+: a ++ c :: b) :
    l <:+: a ∨ l <:+: b := by
  obtain ⟨before, after, h⟩ := h
  rw [List.append_assoc] at h
  rcases List.append_eq_append_iff.mp h with ⟨mid, rfl, hmid⟩ | ⟨mid, rfl, hmid⟩
  · rcases List.append_eq_append_iff.mp hmid with ⟨rest, rfl, -⟩ | ⟨rest, rfl, hrest⟩
    · exact Or.inl ⟨before, rest, by rw [List.append_assoc]⟩
    · cases rest with
      | nil => exact Or.inl ⟨before, [], by simp⟩
      | cons x rest =>
        obtain ⟨rfl, -⟩ := List.cons.inj hrest
        exact absurd (by simp) hc
  · cases mid with
    | nil =>
      cases l with
      | nil => exact Or.inl List.nil_infix
      | cons x l =>
        obtain ⟨rfl, -⟩ := List.cons.inj hmid
        exact absurd List.mem_cons_self hc
    | cons x mid =>
      obtain ⟨-, rfl⟩ := List.cons.inj hmid
      exact Or.inr ⟨mid, after, List.append_assoc _ _ _⟩

/-- The name of a variable for operands cannot stretch over a separator that it lacks. -/
theorem Text.Clean.append {a b separator : String} {c : Char} (ha : Text.Clean a) (hb : Text.Clean b)
    (hseparator : separator.toList = [c]) (hc : c ∉ "__p-".toList) : Text.Clean (a ++ separator ++ b) := by
  intro hfound
  rw [String.toList_append, String.toList_append, hseparator, List.append_assoc, List.singleton_append] at hfound
  exact (infix_append_cons hc hfound).elim ha hb

theorem Text.clean_empty : Text.Clean "" := by decide

namespace Tree

variable {f : UInt32 → UInt32} {t t' : Tree}

theorem clean_addName {text name : String} (htext : Text.Clean text) (hname : Text.Clean name) :
    Text.Clean (addName text name) := by
  unfold addName
  split
  · exact hname
  · exact htext.append (c := '.') hname (by simp) (by decide)

theorem quotedText_alike (h : t.Alike (Token.Rewritten f) t') :
    t'.quotedText = t.quotedText ∧ Text.Clean t.quotedText := by
  have hfound := h.tokenAt? 0
  unfold quotedText
  generalize t.tokenAt? 0 = found, t'.tokenAt? 0 = found' at hfound
  cases hfound with
  | none => exact ⟨rfl, Text.clean_empty⟩
  | some hw => exact ⟨congrArg Text.unquote hw.1.value, hw.2.unquote⟩

mutual

theorem dottedText_alike : ∀ {t t' : Tree}, t.Alike (Token.Rewritten f) t' →
    t'.dottedText = t.dottedText ∧ Text.Clean t.dottedText
  | ⟨_, _⟩, ⟨_, _⟩, .node hs => by
    rw [dottedText, dottedText]
    exact addDotted_alike hs Text.clean_empty
termination_by structural t => t

theorem addDotted_alike : ∀ {cs cs' : List Child} {text : String}, ChildrenAlike f cs cs' → Text.Clean text →
    addDotted text cs' = addDotted text cs ∧ Text.Clean (addDotted text cs)
  | [], [], _, .nil, htext => ⟨rfl, htext⟩
  | .token _ :: _, .token _ :: _, _, .cons (.token hw) hs, htext => by
    rw [addDotted, addDotted, hw.1.value]
    exact addDotted_alike hs (clean_addName htext hw.2)
  | .tree ⟨_, []⟩ :: _, .tree ⟨_, []⟩ :: _, _, .cons (.tree (.node .nil)) hs, htext => by
    rw [addDotted, addDotted]
    exact addDotted_alike hs htext
  | .tree ⟨_, .token _ :: _⟩ :: _, .tree ⟨_, .token _ :: _⟩ :: _, _, .cons (.tree (.node (.cons (.token hw) _))) hs,
      htext => by
    rw [addDotted, addDotted, hw.1.value]
    exact addDotted_alike hs (clean_addName htext hw.2)
  | .tree ⟨_, .tree _ :: _⟩ :: _, .tree ⟨_, .tree _ :: _⟩ :: _, text, .cons (.tree (.node (.cons (.tree h) _))) hs,
      htext => by
    obtain ⟨hquoted, hclean⟩ := quotedText_alike h
    obtain ⟨hinner, hinnerClean⟩ := dottedText_alike h
    rw [addDotted, addDotted, h.tag, hquoted, hinner]
    split
    · exact addDotted_alike hs (clean_addName htext hclean)
    · refine addDotted_alike hs ?_
      have hopen : Text.Clean (text ++ "[" ++ dottedText _) :=
        htext.append (c := '[') hinnerClean (by simp) (by decide)
      have hclosed : Text.Clean (text ++ "[" ++ dottedText _ ++ "]" ++ "") :=
        hopen.append (c := ']') Text.clean_empty (by simp) (by decide)
      rwa [String.append_empty] at hclosed
termination_by structural cs => cs

end

theorem readRequest_agrees (h : t.Alike (Token.Rewritten f) t') :
    Agrees (Same fun r => Text.Clean r.name ∧ ∀ v ∈ r.args, v.Plain) t.readRequest t'.readRequest := by
  refine (h.child "path").lift.bind fun _ _ hpath => (readCommand_agrees h).lift.bind fun _ _ hcommand => ?_
  refine (fragmentArguments_agrees h.children).bind fun arguments _ hargs => ?_
  obtain ⟨hname, hclean⟩ := dottedText_alike hpath
  refine .ok ⟨?_, hclean, Value.plain_arguments arguments⟩
  rw [hname, hcommand, hargs, outputNames?_alike (h.fragmentChild? "output")]

theorem readValueCommand_agrees (h : t.Alike (Token.Rewritten f) t') (bare : Method) :
    Agrees (Same fun x => ∀ v ∈ x.2, v.Plain) (t.readValueCommand bare) (t'.readValueCommand bare) := by
  refine (h.child "path").lift.bind fun _ _ hpath => (readPath_agrees hpath).bind fun _ _ hsubject => ?_
  have hcommand := h.fragmentChild? "command"
  generalize (t.child? _).bind _ = command, (t'.child? _).bind _ = command' at hcommand
  cases hcommand with
  | none =>
    refine (readChain_agrees h).bind fun _ _ hchain => .ok ⟨by rw [hsubject.1, hchain.1], ?_⟩
    exact List.forall_mem_cons.mpr ⟨hsubject.2, hchain.2⟩
  | some hcommand =>
    refine (hcommand.tokenAt 0).lift.bind fun _ _ hw => (fragmentArguments_agrees h.children).bind fun _ _ hargs => ?_
    refine (readChain_agrees h).bind fun _ _ hchain => .ok ⟨by rw [hsubject.1, hw.1.value, hargs, hchain.1], ?_⟩
    exact List.forall_mem_cons.mpr ⟨hsubject.2, List.forall_mem_cons.mpr ⟨trivial, hchain.2⟩⟩

end Tree

end Flowline
