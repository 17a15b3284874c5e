import Mathlib
import Flowline.Lowering.Action
import Flowline.Tree.Search

/-! The grammar of syntax trees. Each tag has a rule, a pattern for the children of a node with that tag, and a
    tree conforms to the grammar if every node in it follows the rule of its tag. Whether it does can be
    computed. What a pattern says about the children that match it (that a child of some kind is among them,
    or comes first, or that there are no others) is read off the pattern. -/

namespace Flowline

/-! ### Kinds of nodes -/

inductive NodeKind where
  | start | block | rules | nestedBlock | assignment | assignmentFragment | baseExpression | expression
  | operator | values | path | pathFragment | inlineExpression | string | number | boolean | types | list
  | objects | keyValue | entity | service | serviceFragment | command | output | arguments | serviceBlock
  | absoluteExpression | mutationBlock | mutation | mutationFragment | chainedMutation | indentedChain
  | callExpression | whenBlock | ifBlock | ifStatement | elseIfBlock | elseIfStatement | elseBlock
  | foreachBlock | foreachStatement | whileBlock | whileStatement | tryBlock | catchBlock | catchStatement
  | finallyBlock | functionBlock | functionStatement | functionArgument | functionOutput | returnStatement
  | breakStatement | throwStatement | imports
deriving DecidableEq, Repr

def NodeKind.tag : NodeKind → String
  | .start => "start"
  | .block => "block"
  | .rules => "rules"
  | .nestedBlock => "nested_block"
  | .assignment => "assignment"
  | .assignmentFragment => "assignment_fragment"
  | .baseExpression => "base_expression"
  | .expression => "expression"
  | .operator => "operator"
  | .values => "values"
  | .path => "path"
  | .pathFragment => "path_fragment"
  | .inlineExpression => "inline_expression"
  | .string => "string"
  | .number => "number"
  | .boolean => "boolean"
  | .types => "types"
  | .list => "list"
  | .objects => "objects"
  | .keyValue => "key_value"
  | .entity => "entity"
  | .service => "service"
  | .serviceFragment => "service_fragment"
  | .command => "command"
  | .output => "output"
  | .arguments => "arguments"
  | .serviceBlock => "service_block"
  | .absoluteExpression => "absolute_expression"
  | .mutationBlock => "mutation_block"
  | .mutation => "mutation"
  | .mutationFragment => "mutation_fragment"
  | .chainedMutation => "chained_mutation"
  | .indentedChain => "indented_chain"
  | .callExpression => "call_expression"
  | .whenBlock => "when_block"
  | .ifBlock => "if_block"
  | .ifStatement => "if_statement"
  | .elseIfBlock => "elseif_block"
  | .elseIfStatement => "elseif_statement"
  | .elseBlock => "else_block"
  | .foreachBlock => "foreach_block"
  | .foreachStatement => "foreach_statement"
  | .whileBlock => "while_block"
  | .whileStatement => "while_statement"
  | .tryBlock => "try_block"
  | .catchBlock => "catch_block"
  | .catchStatement => "catch_statement"
  | .finallyBlock => "finally_block"
  | .functionBlock => "function_block"
  | .functionStatement => "function_statement"
  | .functionArgument => "function_argument"
  | .functionOutput => "function_output"
  | .returnStatement => "return_statement"
  | .breakStatement => "break_statement"
  | .throwStatement => "throw_statement"
  | .imports => "imports"

def NodeKind.all : List NodeKind :=
  [.start, .block, .rules, .nestedBlock, .assignment, .assignmentFragment, .baseExpression, .expression,
    .operator, .values, .path, .pathFragment, .inlineExpression, .string, .number, .boolean, .types, .list,
    .objects, .keyValue, .entity, .service, .serviceFragment, .command, .output, .arguments, .serviceBlock,
    .absoluteExpression, .mutationBlock, .mutation, .mutationFragment, .chainedMutation, .indentedChain,
    .callExpression, .whenBlock, .ifBlock, .ifStatement, .elseIfBlock, .elseIfStatement, .elseBlock,
    .foreachBlock, .foreachStatement, .whileBlock, .whileStatement, .tryBlock, .catchBlock, .catchStatement,
    .finallyBlock, .functionBlock, .functionStatement, .functionArgument, .functionOutput, .returnStatement,
    .breakStatement, .throwStatement, .imports]

theorem NodeKind.mem_all (k : NodeKind) : k ∈ all := by
  cases k <;> decide

/-- The bytes of a text as the digits of a number. Numbers are compared faster than texts. -/
def Text.code (text : String) : Nat :=
  text.toByteArray.data.toList.foldl (fun n byte => 256 * n + byte.toNat) 0

theorem NodeKind.tag_injective : Function.Injective NodeKind.tag := by
  have hnodup : (all.map fun k => Text.code k.tag).Nodup := by decide +kernel
  exact fun k k' h => List.inj_on_of_nodup_map hnodup k.mem_all k'.mem_all (congrArg Text.code h)

theorem NodeKind.tag_ne {tag : String} {k : NodeKind} {kinds : List NodeKind} (k' : NodeKind) (hk : k ∈ kinds)
    (htag : tag = k.tag) (hne : k' ∉ kinds) : tag ≠ k'.tag := by
  rintro rfl
  rw [← tag_injective htag] at hk
  exact hne hk

/-! ### Patterns -/

/-- What a child of a node is: a token of some kind, any token, or a node of some kind. -/
inductive Symbol where
  | token (kind : String)
  | anyToken
  | node (kind : NodeKind)
deriving DecidableEq, Repr

namespace Symbol

def admits : Symbol → Child → Bool
  | .token kind, .token t => t.kind == kind
  | .anyToken, .token _ => true
  | .node kind, .tree t => t.tag == kind.tag
  | _, _ => false

def isToken : Symbol → Bool
  | .node _ => false
  | _ => true

/-- Whether the symbol stands for nodes, all of one of the kinds. -/
def isNodeOf (kinds : List NodeKind) : Symbol → Bool
  | .node kind => kinds.contains kind
  | _ => false

variable {s : Symbol} {c : Child} {t : Tree} {kinds : List NodeKind}

theorem token_of_admits (hs : s.isToken = true) (h : s.admits c = true) : ∃ t, c = .token t := by
  cases s <;> cases c <;> simp_all [isToken, admits]

theorem tree_of_admits (hs : s.isNodeOf kinds = true) (h : s.admits c = true) :
    ∃ t, c = .tree t ∧ ∃ k ∈ kinds, t.tag = k.tag := by
  cases s <;> cases c <;> simp_all [isNodeOf, admits]
  exact ⟨_, hs, rfl⟩

theorem kind_of_admits (hs : (s.isToken || s.isNodeOf kinds) = true) (h : s.admits (.tree t) = true) :
    ∃ k ∈ kinds, t.tag = k.tag := by
  cases s <;> simp_all [isToken, isNodeOf, admits]
  exact ⟨_, hs, rfl⟩

end Symbol

/-- A pattern for a row of children. -/
inductive Pattern where
  | empty
  | one (symbols : List Symbol)
  | seq (first second : Pattern)
  | either (left right : Pattern)
  | many (item : Pattern)
deriving DecidableEq, Repr

namespace Pattern

variable {p q : Pattern} {c : Child} {cs : List Child} {ok : Symbol → Bool}

def Matches : Pattern → List Child → Prop
  | .empty, cs => cs = []
  | .one symbols, cs => ∃ c, cs = [c] ∧ ∃ s ∈ symbols, s.admits c = true
  | .seq p q, cs => ∃ xs ys, cs = xs ++ ys ∧ p.Matches xs ∧ q.Matches ys
  | .either p q, cs => p.Matches cs ∨ q.Matches cs
  | .many p, cs => ∃ rows : List (List Child), cs = rows.flatten ∧ ∀ row ∈ rows, p.Matches row

/-! Matching is decided child by child: `after c` is what must follow once `c` has been seen. -/

def nullable : Pattern → Bool
  | .empty | .many _ => true
  | .one _ => false
  | .seq p q => p.nullable && q.nullable
  | .either p q => p.nullable || q.nullable

def after (c : Child) : Pattern → Pattern
  | .empty => .one []
  | .one symbols => if symbols.any (·.admits c) then .empty else .one []
  | .seq p q => if p.nullable then .either (.seq (p.after c) q) (q.after c) else .seq (p.after c) q
  | .either p q => .either (p.after c) (q.after c)
  | .many p => .seq (p.after c) (.many p)

def accepts (p : Pattern) : List Child → Bool
  | [] => p.nullable
  | c :: cs => (p.after c).accepts cs

theorem nullable_iff : p.nullable = true ↔ p.Matches [] := by
  induction p with
  | empty => simp [nullable, Matches]
  | one symbols => simp [nullable, Matches]
  | seq p q ihp ihq => simp [nullable, Matches, ihp, ihq, and_assoc]
  | either p q ihp ihq => simp [nullable, Matches, ihp, ihq]
  | many p => exact ⟨fun _ => ⟨[], rfl, by simp⟩, fun _ => rfl⟩

/-- The first row that is not empty starts with the first child. -/
theorem many_cons : (many p).Matches (c :: cs) ↔
    ∃ xs ys, cs = xs ++ ys ∧ p.Matches (c :: xs) ∧ (many p).Matches ys := by
  constructor
  · rintro ⟨rows, hrows, hall⟩
    induction rows with
    | nil => simp at hrows
    | cons row rows ih =>
      cases row with
      | nil => exact ih (by simpa using hrows) fun row hrow => hall row (List.mem_cons_of_mem _ hrow)
      | cons d xs =>
        obtain ⟨rfl, rfl⟩ : c = d ∧ cs = xs ++ rows.flatten := by simpa using hrows
        refine ⟨xs, rows.flatten, rfl, hall _ (by simp), rows, rfl, fun row hrow => ?_⟩
        exact hall row (List.mem_cons_of_mem _ hrow)
  · rintro ⟨xs, ys, rfl, hp, rows, rfl, hall⟩
    refine ⟨(c :: xs) :: rows, by simp, ?_⟩
    rintro row (_ | ⟨_, hrow⟩)
    · exact hp
    · exact hall row hrow

theorem seq_cons : (seq p q).Matches (c :: cs) ↔
    (∃ xs ys, cs = xs ++ ys ∧ p.Matches (c :: xs) ∧ q.Matches ys) ∨ (p.Matches [] ∧ q.Matches (c :: cs)) := by
  constructor
  · rintro ⟨_ | ⟨d, xs⟩, ys, heq, hp, hq⟩
    · exact Or.inr ⟨hp, by rwa [heq]⟩
    · obtain ⟨rfl, rfl⟩ : c = d ∧ cs = xs ++ ys := by simpa using heq
      exact Or.inl ⟨xs, ys, rfl, hp, hq⟩
  · rintro (⟨xs, ys, rfl, hp, hq⟩ | ⟨hp, hq⟩)
    · exact ⟨c :: xs, ys, rfl, hp, hq⟩
    · exact ⟨[], c :: cs, rfl, hp, hq⟩

theorem after_iff : (p.after c).Matches cs ↔ p.Matches (c :: cs) := by
  induction p generalizing cs with
  | empty => simp [after, Matches]
  | one symbols =>
    by_cases h : symbols.any (·.admits c) = true
    · have hs : ∃ s ∈ symbols, s.admits c = true := by simpa using h
      simpa [after, h, Matches] using fun _ => hs
    · have hs : ¬∃ s ∈ symbols, s.admits c = true := by simpa using h
      simpa [after, h, Matches] using fun _ => by simpa using hs
  | seq p q ihp ihq =>
    rw [seq_cons, after]
    by_cases hn : p.nullable = true
    · simp [hn, Matches, ihp, ihq, nullable_iff.mp hn]
    · have hp : ¬p.Matches [] := fun h => hn (nullable_iff.mpr h)
      simp [hn, Matches, ihp, hp]
  | either p q ihp ihq => simp [after, Matches, ihp, ihq]
  | many p ihp =>
    rw [many_cons, after, Matches]
    simp [ihp]

theorem accepts_iff : p.accepts cs = true ↔ p.Matches cs := by
  induction cs generalizing p with
  | nil => exact nullable_iff
  | cons c cs ih => rw [accepts, ih, after_iff]

instance : Decidable (p.Matches cs) :=
  decidable_of_iff _ accepts_iff

/-! ### Reading off a pattern -/

/-- Every row that matches has a child that is `ok`. -/
def requires (ok : Symbol → Bool) : Pattern → Bool
  | .empty | .many _ => false
  | .one symbols => symbols.all ok
  | .seq p q => p.requires ok || q.requires ok
  | .either p q => p.requires ok && q.requires ok

/-- In every row that matches, all children are `ok`. -/
def holdsOnly (ok : Symbol → Bool) : Pattern → Bool
  | .empty => true
  | .one symbols => symbols.all ok
  | .seq p q | .either p q => p.holdsOnly ok && q.holdsOnly ok
  | .many p => p.holdsOnly ok

/-- Every row that matches has a first child, which is `ok`. -/
def startsWith (ok : Symbol → Bool) : Pattern → Bool
  | .empty | .many _ => false
  | .one symbols => symbols.all ok
  | .seq p q => p.startsWith ok || (p.holdsOnly ok && q.startsWith ok)
  | .either p q => p.startsWith ok && q.startsWith ok

theorem exists_of_requires (hp : p.Matches cs) (hr : p.requires ok = true) :
    ∃ c ∈ cs, ∃ s, ok s = true ∧ s.admits c = true := by
  induction p generalizing cs with
  | empty | many => cases hr
  | one symbols =>
    obtain ⟨c, rfl, s, hs, hc⟩ := hp
    exact ⟨c, by simp, s, List.all_eq_true.mp hr s hs, hc⟩
  | seq p q ihp ihq =>
    obtain ⟨xs, ys, rfl, hp, hq⟩ := hp
    rcases Bool.or_eq_true _ _ ▸ hr with hr | hr
    · obtain ⟨c, hc, hs⟩ := ihp hp hr
      exact ⟨c, List.mem_append_left _ hc, hs⟩
    · obtain ⟨c, hc, hs⟩ := ihq hq hr
      exact ⟨c, List.mem_append_right _ hc, hs⟩
  | either p q ihp ihq =>
    obtain ⟨hrp, hrq⟩ := Bool.and_eq_true _ _ ▸ hr
    rcases hp with hp | hq
    · exact ihp hp hrp
    · exact ihq hq hrq

theorem forall_of_holdsOnly (hp : p.Matches cs) (hr : p.holdsOnly ok = true) :
    ∀ c ∈ cs, ∃ s, ok s = true ∧ s.admits c = true := by
  induction p generalizing cs with
  | empty => simp [show cs = [] from hp]
  | one symbols =>
    obtain ⟨c, rfl, s, hs, hc⟩ := hp
    simpa using ⟨s, List.all_eq_true.mp hr s hs, hc⟩
  | seq p q ihp ihq =>
    obtain ⟨xs, ys, rfl, hp, hq⟩ := hp
    obtain ⟨hrp, hrq⟩ := Bool.and_eq_true _ _ ▸ hr
    intro c hc
    rcases List.mem_append.mp hc with hc | hc
    · exact ihp hp hrp c hc
    · exact ihq hq hrq c hc
  | either p q ihp ihq =>
    obtain ⟨hrp, hrq⟩ := Bool.and_eq_true _ _ ▸ hr
    rcases hp with hp | hq
    · exact ihp hp hrp
    · exact ihq hq hrq
  | many p ih =>
    obtain ⟨rows, rfl, hrows⟩ := hp
    intro c hc
    obtain ⟨row, hrow, hc⟩ := List.mem_flatten.mp hc
    exact ih (hrows row hrow) hr c hc

theorem cons_of_startsWith (hp : p.Matches cs) (hr : p.startsWith ok = true) :
    ∃ c rest s, cs = c :: rest ∧ ok s = true ∧ s.admits c = true := by
  induction p generalizing cs with
  | empty | many => cases hr
  | one symbols =>
    obtain ⟨c, rfl, s, hs, hc⟩ := hp
    exact ⟨c, [], s, rfl, List.all_eq_true.mp hr s hs, hc⟩
  | seq p q ihp ihq =>
    obtain ⟨xs, ys, rfl, hp, hq⟩ := hp
    rcases Bool.or_eq_true _ _ ▸ hr with hr | hr
    · obtain ⟨c, rest, s, rfl, hs, hc⟩ := ihp hp hr
      exact ⟨c, rest ++ ys, s, rfl, hs, hc⟩
    · obtain ⟨hrp, hrq⟩ := Bool.and_eq_true _ _ ▸ hr
      cases xs with
      | nil => exact ihq hq hrq
      | cons c xs =>
        obtain ⟨s, hs, hc⟩ := forall_of_holdsOnly hp hrp c (by simp)
        exact ⟨c, xs ++ ys, s, rfl, hs, hc⟩
  | either p q ihp ihq =>
    obtain ⟨hrp, hrq⟩ := Bool.and_eq_true _ _ ▸ hr
    rcases hp with hp | hq
    · exact ihp hp hrp
    · exact ihq hq hrq

/-! ### Abbreviations -/

def nodes (kinds : List NodeKind) : Pattern :=
  .one (kinds.map .node)

def tokens (kinds : List String) : Pattern :=
  .one (kinds.map .token)

theorem nodes_iff {kinds : List NodeKind} :
    (nodes kinds).Matches cs ↔ ∃ t, cs = [.tree t] ∧ ∃ k ∈ kinds, t.tag = k.tag := by
  constructor
  · rintro ⟨c, rfl, s, hs, hadmits⟩
    obtain ⟨k, hk, rfl⟩ := List.mem_map.mp hs
    have hnode : Symbol.isNodeOf kinds (.node k) = true := by simpa [Symbol.isNodeOf] using hk
    obtain ⟨t, rfl, ht⟩ := Symbol.tree_of_admits hnode hadmits
    exact ⟨t, rfl, ht⟩
  · rintro ⟨t, rfl, k, hk, ht⟩
    exact ⟨_, rfl, .node k, List.mem_map_of_mem hk, by simp [Symbol.admits, ht]⟩

theorem tokens_iff {kinds : List String} : (tokens kinds).Matches cs ↔ ∃ t, cs = [.token t] ∧ t.kind ∈ kinds := by
  constructor
  · rintro ⟨c, rfl, s, hs, hadmits⟩
    obtain ⟨kind, hkind, rfl⟩ := List.mem_map.mp hs
    cases c with
    | tree => cases hadmits
    | token t =>
      obtain rfl : t.kind = kind := by simpa [Symbol.admits] using hadmits
      exact ⟨t, rfl, hkind⟩
  · rintro ⟨t, rfl, ht⟩
    exact ⟨_, rfl, .token t.kind, List.mem_map_of_mem ht, by simp [Symbol.admits]⟩

def maybe (p : Pattern) : Pattern :=
  .either .empty p

def row : List Pattern → Pattern
  | [] => .empty
  | [p] => p
  | p :: ps => .seq p (row ps)

end Pattern

/-! ### Rules -/

namespace Grammar

open Pattern

/-- Statements, containers of statements, and branches. -/
def statementKinds : List NodeKind :=
  [.start, .block, .rules, .nestedBlock, .assignment, .absoluteExpression, .service, .serviceBlock,
    .mutation, .mutationBlock, .indentedChain, .arguments, .callExpression, .whenBlock, .ifBlock,
    .elseIfBlock, .elseBlock, .foreachBlock, .whileBlock, .tryBlock, .catchBlock, .finallyBlock,
    .functionBlock, .returnStatement, .breakStatement, .throwStatement, .imports]

def body : Pattern := nodes [.nestedBlock]

def operand : Pattern := nodes [.values, .path, .expression]

def subject : Pattern := nodes [.entity, .values, .path]

/-- Nodes that stand for a value. -/
def valueKinds : List NodeKind :=
  [.values, .entity, .path, .expression, .string, .number, .boolean, .list, .objects, .types, .service]

/-- The pattern for the children of a node. -/
def rule : NodeKind → Pattern
  | .start | .block | .rules | .nestedBlock => many (nodes statementKinds)
  | .assignment => row [nodes [.path], maybe (tokens ["EQUALS"]), nodes [.assignmentFragment]]
  | .assignmentFragment => nodes [.baseExpression]
  | .baseExpression => nodes [.expression, .service, .mutation, .callExpression]
  | .expression => row [operand, many (row [nodes [.operator], operand])]
  | .operator => one [.anyToken]
  | .values =>
    either (nodes [.string, .number, .boolean, .list, .objects, .types])
      (either (tokens ["FILEPATH", "NAME"]) (row [nodes [.path], nodes [.serviceFragment]]))
  | .path => row [tokens ["NAME"], many (nodes [.pathFragment])]
  | .pathFragment => one [.token "NAME", .token "INT", .node .string, .node .path, .node .inlineExpression]
  | .inlineExpression => operand
  | .string => tokens ["DOUBLE_QUOTED", "SINGLE_QUOTED"]
  | .number => tokens ["INT", "FLOAT"]
  | .boolean => tokens ["TRUE", "FALSE"]
  | .types => one [.anyToken]
  | .list => many (nodes [.values, .path])
  | .objects => many (nodes [.keyValue])
  | .keyValue => row [nodes [.string, .path], nodes [.values, .path]]
  | .entity => nodes [.values, .path]
  | .service => row [nodes [.path], nodes [.serviceFragment]]
  | .serviceFragment => row [maybe (nodes [.command]), many (nodes [.arguments]), maybe (nodes [.output])]
  | .command => tokens ["NAME"]
  | .output => row [tokens ["NAME"], many (tokens ["NAME"])]
  | .arguments => row [maybe (tokens ["NAME"]), operand]
  | .serviceBlock => row [nodes [.service], maybe body]
  | .absoluteExpression => nodes [.expression]
  | .mutationBlock => row [nodes [.mutation], maybe body]
  | .mutation => row [subject, nodes [.mutationFragment], many (nodes [.chainedMutation])]
  | .mutationFragment => row [tokens ["NAME"], many (nodes [.arguments])]
  | .chainedMutation => row [maybe (tokens ["THEN"]), nodes [.mutationFragment]]
  | .indentedChain => row [nodes [.chainedMutation], many (nodes [.chainedMutation])]
  | .callExpression => row [nodes [.path], many (nodes [.arguments])]
  | .whenBlock =>
    row [tokens ["WHEN"], either (nodes [.service]) (row [nodes [.path], maybe (nodes [.output])]), body]
  | .ifBlock => row [nodes [.ifStatement], body, many (nodes [.elseIfBlock]), maybe (nodes [.elseBlock])]
  | .ifStatement => row [tokens ["IF"], nodes [.baseExpression]]
  | .elseIfBlock => row [nodes [.elseIfStatement], body]
  | .elseIfStatement => row [maybe (tokens ["ELSE"]), maybe (tokens ["IF"]), nodes [.baseExpression]]
  | .elseBlock => row [tokens ["ELSE"], body]
  | .foreachBlock => row [nodes [.foreachStatement], body]
  | .foreachStatement => row [tokens ["FOREACH"], subject, nodes [.output]]
  | .whileBlock => row [nodes [.whileStatement], body]
  | .whileStatement => row [tokens ["WHILE"], nodes [.baseExpression]]
  | .tryBlock => row [tokens ["TRY"], body, maybe (nodes [.catchBlock]), maybe (nodes [.finallyBlock])]
  | .catchBlock => row [nodes [.catchStatement], body]
  | .catchStatement => row [tokens ["CATCH"], tokens ["NAME"]]
  | .finallyBlock => row [tokens ["FINALLY"], body]
  | .functionBlock => row [nodes [.functionStatement], body]
  | .functionStatement =>
    row [tokens ["FUNCTION"], tokens ["NAME"], many (nodes [.functionArgument]), maybe (nodes [.functionOutput])]
  | .functionArgument => row [tokens ["NAME"], nodes [.types]]
  | .functionOutput => row [nodes [.types], many (nodes [.types])]
  | .returnStatement => row [tokens ["RETURN"], maybe (nodes [.baseExpression])]
  | .breakStatement => tokens ["BREAK"]
  | .throwStatement => row [tokens ["RAISE"], maybe (either subject (tokens ["NAME"]))]
  | .imports => row [tokens ["IMPORT"], nodes [.string], maybe (tokens ["AS"]), tokens ["NAME"]]

end Grammar

/-! ### Conforming trees -/

namespace Tree

/-- The node follows the rule of a kind. The token of a number spells one, and a value is not made of empty lists
    and dictionaries alone. -/
structure Shaped (k : NodeKind) (t : Tree) : Prop where
  tag : t.tag = k.tag
  children : (Grammar.rule k).Matches t.children
  number : k = .number → ∀ token ∈ t.tokens, (numberOf? token).isSome = true
  value : k = .values → t.position?.isSome = true

instance (k : NodeKind) (t : Tree) : Decidable (t.Shaped k) :=
  decidable_of_iff (_ ∧ _ ∧ _ ∧ _)
    ⟨fun h => ⟨h.1, h.2.1, h.2.2.1, h.2.2.2⟩, fun h => ⟨h.tag, h.children, h.number, h.value⟩⟩

instance (t : Tree) : Decidable (∃ k, t.Shaped k) :=
  decidable_of_iff (∃ k ∈ NodeKind.all, t.Shaped k)
    ⟨fun ⟨k, _, h⟩ => ⟨k, h⟩, fun ⟨k, h⟩ => ⟨k, k.mem_all, h⟩⟩

/-- Every node of the tree follows the rule of its kind. -/
def Conforms (t : Tree) : Prop :=
  ∀ u ∈ t.descendants, ∃ k, u.Shaped k

instance (t : Tree) : Decidable t.Conforms :=
  inferInstanceAs (Decidable (∀ u ∈ t.descendants, ∃ k, u.Shaped k))

/-- The tree conforms to the grammar, and is a node of a kind. -/
structure Is (k : NodeKind) (t : Tree) : Prop where
  tag : t.tag = k.tag
  conforms : t.Conforms

/-! Readers of values do not ask where a value stands, and accept all trees that follow the rules otherwise. -/

/-- The node follows the rule of a kind, and a value may be made of empty lists and dictionaries alone. -/
structure Ruled (k : NodeKind) (t : Tree) : Prop where
  tag : t.tag = k.tag
  children : (Grammar.rule k).Matches t.children
  number : k = .number → ∀ token ∈ t.tokens, (numberOf? token).isSome = true

instance (k : NodeKind) (t : Tree) : Decidable (t.Ruled k) :=
  decidable_of_iff (_ ∧ _ ∧ _) ⟨fun h => ⟨h.1, h.2.1, h.2.2⟩, fun h => ⟨h.tag, h.children, h.number⟩⟩

instance (t : Tree) : Decidable (∃ k, t.Ruled k) :=
  decidable_of_iff (∃ k ∈ NodeKind.all, t.Ruled k)
    ⟨fun ⟨k, _, h⟩ => ⟨k, h⟩, fun ⟨k, h⟩ => ⟨k, k.mem_all, h⟩⟩

/-- Every node of the tree follows the rule of its kind, wherever its values stand. -/
def Grammatical (t : Tree) : Prop :=
  ∀ u ∈ t.descendants, ∃ k, u.Ruled k

instance (t : Tree) : Decidable t.Grammatical :=
  inferInstanceAs (Decidable (∀ u ∈ t.descendants, ∃ k, u.Ruled k))

/-- The tree is grammatical, and is a node of a kind. -/
structure Obeys (k : NodeKind) (t : Tree) : Prop where
  tag : t.tag = k.tag
  grammatical : t.Grammatical

variable {t u : Tree} {k : NodeKind}

theorem mem_subtrees : u ∈ t.subtrees ↔ .tree u ∈ t.children := by
  constructor
  · intro hu
    obtain ⟨c, hc, hcu⟩ := List.mem_filterMap.mp hu
    cases c with
    | tree c =>
      cases hcu
      exact hc
    | token => cases hcu
  · exact fun hu => List.mem_filterMap.mpr ⟨_, hu, rfl⟩

theorem self_mem_descendants (t : Tree) : t ∈ t.descendants := by
  cases t
  simp [descendants]

theorem descendantsOfChildren_eq (children : List Child) :
    descendantsOfChildren children = (children.filterMap Child.tree?).flatMap descendants := by
  induction children with
  | nil => rfl
  | cons c rest ih => cases c <;> simp [descendantsOfChildren, Child.tree?, List.filterMap_cons, ih]

theorem findAll_eq (t : Tree) (tag : String) :
    t.findAll tag =
      if t.tag == tag then t :: t.subtrees.flatMap (·.findAll tag) else t.subtrees.flatMap (·.findAll tag) := by
  obtain ⟨kind, children⟩ := t
  rw [findAll, descendants, descendantsOfChildren_eq, List.filter_cons, List.filter_flatMap]
  rfl

theorem mem_descendants : u ∈ t.descendants ↔ u = t ∨ ∃ c ∈ t.subtrees, u ∈ c.descendants := by
  cases t
  simp [descendants, descendantsOfChildren_eq, subtrees]

theorem size_le_totalSize {ts : List Tree} (hu : u ∈ ts) : u.size ≤ totalSize ts := by
  induction ts with
  | nil => cases hu
  | cons c rest ih =>
    rw [totalSize]
    rcases List.mem_cons.mp hu with rfl | hu
    · omega
    · have := ih hu
      omega

/-- What holds of a tree as soon as it holds of its subtrees holds of every tree. -/
theorem subtreeInduction {P : Tree → Prop} (step : ∀ t, (∀ c ∈ t.subtrees, P c) → P t) (t : Tree) : P t :=
  step t fun c hc =>
    have : c.size < t.size := by
      rw [size_eq t]
      exact Nat.lt_succ_of_le (size_le_totalSize hc)
    subtreeInduction step c
termination_by t.size

theorem descendants_trans {v : Tree} (hu : u ∈ t.descendants) (hv : v ∈ u.descendants) : v ∈ t.descendants := by
  induction t using subtreeInduction with
  | step t ih =>
    rcases mem_descendants.mp hu with rfl | ⟨c, hc, hu⟩
    · exact hv
    · exact mem_descendants.mpr (Or.inr ⟨c, hc, ih c hc hu⟩)

theorem Conforms.descendant (h : t.Conforms) (hu : u ∈ t.descendants) : u.Conforms :=
  fun _ hv => h _ (descendants_trans hu hv)

theorem Conforms.subtree (h : t.Conforms) (hu : u ∈ t.subtrees) : u.Conforms :=
  h.descendant (mem_descendants.mpr (Or.inr ⟨u, hu, u.self_mem_descendants⟩))

theorem Is.shaped (h : t.Is k) : t.Shaped k := by
  obtain ⟨k', hk⟩ := h.conforms t t.self_mem_descendants
  rwa [← NodeKind.tag_injective (hk.tag.symm.trans h.tag)]

theorem Grammatical.descendant (h : t.Grammatical) (hu : u ∈ t.descendants) : u.Grammatical :=
  fun _ hv => h _ (descendants_trans hu hv)

theorem Grammatical.subtree (h : t.Grammatical) (hu : u ∈ t.subtrees) : u.Grammatical :=
  h.descendant (mem_descendants.mpr (Or.inr ⟨u, hu, u.self_mem_descendants⟩))

theorem Obeys.ruled (h : t.Obeys k) : t.Ruled k := by
  obtain ⟨k', hk⟩ := h.grammatical t t.self_mem_descendants
  rwa [← NodeKind.tag_injective (hk.tag.symm.trans h.tag)]

theorem Conforms.grammatical (h : t.Conforms) : t.Grammatical := fun u hu =>
  let ⟨k, hk⟩ := h u hu
  ⟨k, hk.tag, hk.children, hk.number⟩

theorem Is.obeys (h : t.Is k) : t.Obeys k :=
  ⟨h.tag, h.conforms.grammatical⟩

/-! ### Looking things up -/

theorem child?_eq_some {tag : String} (h : t.child? tag = some u) : u ∈ t.subtrees ∧ u.tag = tag :=
  ⟨List.mem_of_find?_eq_some h, by simpa using List.find?_some h⟩

theorem Conforms.child? {tag : String} (h : t.Conforms) (hu : t.child? tag = some u) (k : NodeKind)
    (hk : tag = k.tag) : u.Is k :=
  ⟨(child?_eq_some hu).2.trans hk, h.subtree (child?_eq_some hu).1⟩

theorem Conforms.child_of_mem (h : t.Conforms) (hu : u ∈ t.subtrees) (htag : u.tag = k.tag) :
    ∃ v, t.child k.tag = .ok v ∧ v.Is k := by
  cases hchild : t.child? k.tag with
  | none => exact absurd (beq_iff_eq.mpr htag) (List.find?_eq_none.mp hchild u hu)
  | some v => exact ⟨v, by rw [Tree.child, hchild], h.child? hchild k rfl⟩

theorem Grammatical.child? {tag : String} (h : t.Grammatical) (hu : t.child? tag = some u) (k : NodeKind)
    (hk : tag = k.tag) : u.Obeys k :=
  ⟨(child?_eq_some hu).2.trans hk, h.subtree (child?_eq_some hu).1⟩

theorem Conforms.tagged {tag : String} (h : t.Conforms) (hu : u ∈ t.childrenTagged tag) (k : NodeKind)
    (hk : tag = k.tag) : u.Is k := by
  obtain ⟨hmem, htag⟩ := List.mem_filter.mp hu
  exact ⟨(beq_iff_eq.mp htag).trans hk, h.subtree hmem⟩

theorem mem_tokens_of_tokenAt {token : Token} {index : Nat} (h : t.tokenAt index = .ok token) : token ∈ t.tokens := by
  unfold tokenAt at h
  split at h
  · rename_i found hfound
    cases h
    obtain ⟨c, hc, htoken⟩ := Option.bind_eq_some_iff.mp hfound
    exact List.mem_filterMap.mpr ⟨c, List.mem_of_getElem? hc, htoken⟩
  · cases h

/-! What a rule says is evaluated where it is used. -/

namespace Obeys

theorem exists_subtree (h : t.Obeys k) (kinds : List NodeKind)
    (hr : (Grammar.rule k).requires (Symbol.isNodeOf kinds) = true) :
    ∃ u ∈ t.subtrees, ∃ k ∈ kinds, u.Obeys k := by
  obtain ⟨c, hc, s, hs, hadmits⟩ := Pattern.exists_of_requires h.ruled.children hr
  obtain ⟨u, rfl, k', hk', hu⟩ := Symbol.tree_of_admits hs hadmits
  have hmem := mem_subtrees.mpr hc
  exact ⟨u, hmem, k', hk', hu, h.grammatical.subtree hmem⟩

/-- A child that the rule requires is found. -/
theorem child (h : t.Obeys k) (k' : NodeKind)
    (hr : (Grammar.rule k).requires (Symbol.isNodeOf [k']) = true) :
    ∃ u, t.child k'.tag = .ok u ∧ u ∈ t.subtrees ∧ u.Obeys k' := by
  obtain ⟨v, hv, k₀, hk₀, hkind⟩ := h.exists_subtree [k'] hr
  obtain rfl := List.mem_singleton.mp hk₀
  cases hchild : t.child? k₀.tag with
  | none => exact absurd (beq_iff_eq.mpr hkind.tag) (List.find?_eq_none.mp hchild v hv)
  | some u => exact ⟨u, by rw [Tree.child, hchild], (child?_eq_some hchild).1, h.grammatical.child? hchild k₀ rfl⟩

theorem first_token (h : t.Obeys k) (hr : (Grammar.rule k).startsWith Symbol.isToken = true) :
    ∃ token, t.tokenAt 0 = .ok token := by
  obtain ⟨c, rest, s, hc, hs, hadmits⟩ := Pattern.cons_of_startsWith h.ruled.children hr
  obtain ⟨token, rfl⟩ := Symbol.token_of_admits hs hadmits
  exact ⟨token, by simp [tokenAt, tokenAt?, hc, Child.token?]⟩

theorem first_tree (h : t.Obeys k) (kinds : List NodeKind)
    (hr : (Grammar.rule k).startsWith (Symbol.isNodeOf kinds) = true) :
    ∃ u rest, t.children = .tree u :: rest ∧ ∃ k ∈ kinds, u.Obeys k := by
  obtain ⟨c, rest, s, hc, hs, hadmits⟩ := Pattern.cons_of_startsWith h.ruled.children hr
  obtain ⟨u, rfl, k', hk', hu⟩ := Symbol.tree_of_admits hs hadmits
  exact ⟨u, rest, hc, k', hk', hu, h.grammatical.subtree (mem_subtrees.mpr (by simp [hc]))⟩

/-- A rule that allows no others gives the kinds of the subtrees. -/
theorem subtree (h : t.Obeys k) (kinds : List NodeKind) (hu : u ∈ t.subtrees)
    (hr : (Grammar.rule k).holdsOnly (fun s => s.isToken || s.isNodeOf kinds) = true) :
    ∃ k ∈ kinds, u.Obeys k := by
  obtain ⟨s, hs, hadmits⟩ := Pattern.forall_of_holdsOnly h.ruled.children hr _ (mem_subtrees.mp hu)
  obtain ⟨k', hk', htag⟩ := Symbol.kind_of_admits hs hadmits
  exact ⟨k', hk', htag, h.grammatical.subtree hu⟩

end Obeys

namespace Is

theorem exists_subtree (h : t.Is k) (kinds : List NodeKind)
    (hr : (Grammar.rule k).requires (Symbol.isNodeOf kinds) = true) :
    ∃ u ∈ t.subtrees, ∃ k ∈ kinds, u.Is k := by
  obtain ⟨u, hmem, k', hk', hu⟩ := h.obeys.exists_subtree kinds hr
  exact ⟨u, hmem, k', hk', hu.tag, h.conforms.subtree hmem⟩

theorem child (h : t.Is k) (k' : NodeKind)
    (hr : (Grammar.rule k).requires (Symbol.isNodeOf [k']) = true) :
    ∃ u, t.child k'.tag = .ok u ∧ u.Is k' := by
  obtain ⟨u, hchild, hmem, hu⟩ := h.obeys.child k' hr
  exact ⟨u, hchild, hu.tag, h.conforms.subtree hmem⟩

theorem first_token (h : t.Is k) (hr : (Grammar.rule k).startsWith Symbol.isToken = true) :
    ∃ token, t.tokenAt 0 = .ok token :=
  h.obeys.first_token hr

theorem first_tree (h : t.Is k) (kinds : List NodeKind)
    (hr : (Grammar.rule k).startsWith (Symbol.isNodeOf kinds) = true) :
    ∃ u rest, t.children = .tree u :: rest ∧ ∃ k ∈ kinds, u.Is k := by
  obtain ⟨u, rest, hc, k', hk', hu⟩ := h.obeys.first_tree kinds hr
  exact ⟨u, rest, hc, k', hk', hu.tag, h.conforms.subtree (mem_subtrees.mpr (by simp [hc]))⟩

theorem leadingTree (h : t.Is k) (kinds : List NodeKind)
    (hr : (Grammar.rule k).startsWith (Symbol.isNodeOf kinds) = true) :
    ∃ u, t.leadingTree = .ok u ∧ ∃ k ∈ kinds, u.Is k := by
  obtain ⟨u, rest, hc, hu⟩ := h.first_tree kinds hr
  exact ⟨u, by simp [Tree.leadingTree, treeAt?, hc, Child.tree?], hu⟩

theorem nameToken (h : t.Is k)
    (hr : (Grammar.rule k).requires (· == .token "NAME") = true) :
    ∃ token, t.nameToken = .ok token := by
  obtain ⟨c, hc, s, hs, hadmits⟩ := Pattern.exists_of_requires h.shaped.children hr
  obtain rfl := beq_iff_eq.mp hs
  cases c with
  | tree => cases hadmits
  | token token =>
    have hfound : (t.tokenOf? "NAME").isSome = true := by
      rw [tokenOf?, List.find?_isSome]
      exact ⟨token, List.mem_filterMap.mpr ⟨_, hc, rfl⟩, hadmits⟩
    obtain ⟨found, hfound⟩ := Option.isSome_iff_exists.mp hfound
    exact ⟨found, by rw [Tree.nameToken, hfound]⟩

theorem subtree (h : t.Is k) (kinds : List NodeKind) (hu : u ∈ t.subtrees)
    (hr : (Grammar.rule k).holdsOnly (fun s => s.isToken || s.isNodeOf kinds) = true) :
    ∃ k ∈ kinds, u.Is k := by
  obtain ⟨k', hk', htag⟩ := h.obeys.subtree kinds hu hr
  exact ⟨k', hk', htag.tag, h.conforms.subtree hu⟩

end Is

/-! ### Positions -/

theorem positionOfChildren?_isSome {c : Child} {cs : List Child} (hc : c ∈ cs)
    (h : ∀ u, c = .tree u → u.position?.isSome = true) : (positionOfChildren? cs).isSome = true := by
  induction cs with
  | nil => cases hc
  | cons d cs ih =>
    cases d with
    | token => rfl
    | tree v =>
      rw [positionOfChildren?]
      split
      · rfl
      · rename_i hnone
        rcases List.mem_cons.mp hc with rfl | hc
        · have := h v rfl
          simp [hnone] at this
        · exact ih hc

end Tree

/-- Nodes that stand somewhere in the source, because a token of their own or a part of them does. -/
def Grammar.positionedKinds : List NodeKind :=
  [.values, .path, .expression, .entity, .service, .mutation, .callExpression, .baseExpression,
    .absoluteExpression, .whenBlock, .ifStatement, .elseIfStatement, .elseBlock, .foreachStatement,
    .whileStatement, .tryBlock, .catchStatement, .finallyBlock, .functionStatement, .returnStatement,
    .breakStatement, .throwStatement]

theorem Grammar.positioned_rule : ∀ k ∈ positionedKinds, k = .values ∨
    (rule k).requires (fun s => s.isToken || s.isNodeOf positionedKinds) = true := by
  decide

namespace Tree

variable {t : Tree} {k : NodeKind}

theorem Is.position? (h : t.Is k) (hk : k ∈ Grammar.positionedKinds) : t.position?.isSome = true := by
  induction t using subtreeInduction generalizing k with
  | step t ih =>
    rcases Grammar.positioned_rule k hk with hv | hr
    · exact h.shaped.value hv
    · obtain ⟨c, hc, s, hs, hadmits⟩ := Pattern.exists_of_requires h.shaped.children hr
      have hpart : ∀ u, c = .tree u → u.position?.isSome = true := by
        rintro u rfl
        have hu := mem_subtrees.mpr hc
        obtain ⟨k', hk', htag⟩ := Symbol.kind_of_admits hs hadmits
        exact ih u hu ⟨htag, h.conforms.subtree hu⟩ hk'
      cases t
      exact positionOfChildren?_isSome hc hpart

theorem Is.line (h : t.Is k) (hk : k ∈ Grammar.positionedKinds) : ∃ line, t.line = .ok line := by
  obtain ⟨position, hp⟩ := Option.isSome_iff_exists.mp (h.position? hk)
  exact ⟨position.line, by rw [Tree.line, hp]⟩

end Tree

end Flowline
