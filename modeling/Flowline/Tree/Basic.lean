import Flowline.Text.Split

/-!
Syntax trees. A tree carries the tag of the grammar rule that produced it and its children in order, each
a tree or a lexical token. Trees come from outside and may have any shape, so looking something up answers
an option, or fails with the `Missing` that says what the tree lacks.
-/

namespace Flowline

/-- A place in the source text, from a column of a line up to an end column where that is known. -/
structure Position where
  line : UInt32
  column : UInt32
  endColumn : Option UInt32 := none
deriving DecidableEq, Repr

namespace Position

/-- The position in words. -/
def describe (p : Position) : String :=
  s!"line {p.line.toNat}, column {p.column.toNat}"

/-- The number of columns covered, at least one. -/
def width (p : Position) : UInt32 :=
  match p.endColumn with
  | some last => if p.column < last then last - p.column else 1
  | none => 1

end Position

/-- A lexical token: its kind, its text and where it stands. -/
structure Token where
  kind : String
  value : String
  position : Position
deriving DecidableEq, Repr

mutual

/-- A node of a syntax tree: the tag of its grammar rule and its children. -/
structure Tree where
  tag : String
  children : List Child

/-- A child of a node. -/
inductive Child where
  | tree (tree : Tree)
  | token (token : Token)

end

/-- What a tree lacks that its grammar rule promises. -/
inductive Missing where
  | node (tag expected : String)
  | token (tag : String) (index : Nat)
  | position (tag : String)
deriving DecidableEq, Repr

/-- The wording of a shape error. -/
def Missing.message : Missing → String
  | .node tag expected => s!"`{tag}` has no `{expected}` child"
  | .token tag index => s!"`{tag}` has no token at child {index}"
  | .position tag => s!"`{tag}` carries no source position"

namespace Child

/-- The child as a tree. -/
def tree? : Child → Option Tree
  | .tree t => some t
  | .token _ => none

/-- The child as a token. -/
def token? : Child → Option Token
  | .tree _ => none
  | .token t => some t

end Child

namespace Tree

/-! ### Direct children -/

/-- The children that are trees, in order. -/
def subtrees (t : Tree) : List Tree :=
  t.children.filterMap Child.tree?

/-- The children that are tokens, in order. -/
def tokens (t : Tree) : List Token :=
  t.children.filterMap Child.token?

/-- The child at an index, if it is a tree. -/
def treeAt? (t : Tree) (index : Nat) : Option Tree :=
  t.children[index]?.bind Child.tree?

/-- The child at an index, if it is a token. -/
def tokenAt? (t : Tree) (index : Nat) : Option Token :=
  t.children[index]?.bind Child.token?

/-- The token that must stand at an index. -/
def tokenAt (t : Tree) (index : Nat) : Except Missing Token :=
  match t.tokenAt? index with
  | some token => .ok token
  | none => .error (.token t.tag index)

/-- The first token of a kind. -/
def tokenOf? (t : Tree) (kind : String) : Option Token :=
  t.tokens.find? (·.kind == kind)

/-- The first subtree with a tag. -/
def child? (t : Tree) (tag : String) : Option Tree :=
  t.subtrees.find? (·.tag == tag)

/-- The first subtree with a tag, which must be there. -/
def child (t : Tree) (tag : String) : Except Missing Tree :=
  match t.child? tag with
  | some c => .ok c
  | none => .error (.node t.tag tag)

/-- All subtrees with a tag. -/
def childrenTagged (t : Tree) (tag : String) : List Tree :=
  t.subtrees.filter (·.tag == tag)

/-- Follows a dotted row of tags, each step to the first subtree with that tag. -/
def node? (t : Tree) (path : String) : Option Tree :=
  (Text.dotted path).foldlM child? t

/-- Follows a dotted row of tags that must lead somewhere. -/
def node (t : Tree) (path : String) : Except Missing Tree :=
  match t.node? path with
  | some c => .ok c
  | none => .error (.node t.tag path)

/-! ### The whole tree -/

mutual

/-- Where the first token of the tree stands. -/
def position? : Tree → Option Position
  | ⟨_, children⟩ => positionOfChildren? children

/-- Where the first token below these children stands. -/
def positionOfChildren? : List Child → Option Position
  | [] => none
  | .token token :: _ => some token.position
  | .tree t :: rest =>
    match t.position? with
    | some p => some p
    | none => positionOfChildren? rest

end

/-- The source line on which the tree starts. -/
def line (t : Tree) : Except Missing UInt32 :=
  match t.position? with
  | some p => .ok p.line
  | none => .error (.position t.tag)

mutual

/-- The tree and all trees below it, in document order: each before those below it. -/
def descendants : Tree → List Tree
  | ⟨tag, children⟩ => ⟨tag, children⟩ :: descendantsOfChildren children

/-- The trees at and below these children, in document order. -/
def descendantsOfChildren : List Child → List Tree
  | [] => []
  | .token _ :: rest => descendantsOfChildren rest
  | .tree t :: rest => t.descendants ++ descendantsOfChildren rest

end

/-- The trees with a tag at and below `t`, in document order. -/
def findAll (t : Tree) (tag : String) : List Tree :=
  t.descendants.filter (·.tag == tag)

/-- Whether an expression consists of a single value or path, possibly through further expressions. -/
def isLoneOperand : Tree → Bool
  | ⟨_, [.tree ⟨tag, children⟩]⟩ =>
    tag == "values" || tag == "path" || (tag == "expression" && isLoneOperand ⟨tag, children⟩)
  | _ => false

end Tree

end Flowline
