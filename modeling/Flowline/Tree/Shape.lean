import Flowline.Text.Split
import Flowline.Tree.Basic

/-!
The shapes of the grammar: for each kind of node, the tree that it has in a well-formed script. Each shape
that needs a position of its own has a keyword or a name on the given line, at its first column.
-/

namespace Flowline.Shape

/-- A token at the start of a line. -/
def token (kind value : String) (line : UInt32) : Token :=
  ⟨kind, value, { line, column := 1 }⟩

/-- A token as a child. -/
def leaf (kind value : String) (line : UInt32) : Child :=
  .token (token kind value line)

/-- A node all of whose children are trees. -/
def wrap (tag : String) (children : List Tree) : Tree :=
  ⟨tag, children.map .tree⟩

/-! ### Values -/

/-- A path: its first name, and a fragment for each further one. -/
def path (dotted : String) (line : UInt32) : Tree :=
  match Text.dotted dotted with
  | [] => ⟨"path", []⟩
  | root :: names =>
    ⟨"path", leaf "NAME" root line :: names.map fun name => .tree ⟨"path_fragment", [leaf "NAME" name line]⟩⟩

/-- A string in double quotes. -/
def string (text : String) (line : UInt32) : Tree :=
  ⟨"string", [leaf "DOUBLE_QUOTED" ("\"" ++ text ++ "\"") line]⟩

/-- A whole number. -/
def int (value : Int) (line : UInt32) : Tree :=
  ⟨"number", [leaf "INT" (toString value) line]⟩

/-- A truth value. -/
def boolean (value : Bool) (line : UInt32) : Tree :=
  ⟨"boolean", [if value then leaf "TRUE" "true" line else leaf "FALSE" "false" line]⟩

/-- The name of a type. -/
def typeName (name : String) (line : UInt32) : Tree :=
  ⟨"types", [leaf "NAME" name line]⟩

/-- A value. -/
def values (inner : Tree) : Tree :=
  wrap "values" [inner]

/-- A list. -/
def list (items : List Tree) : Tree :=
  wrap "list" items

/-- An operator. -/
def operator (symbol : String) (line : UInt32) : Tree :=
  ⟨"operator", [leaf "OPERATOR" symbol line]⟩

/-- Operands with operators between them. -/
def expression (children : List Tree) : Tree :=
  wrap "expression" children

/-- The right-hand side of an assignment, or the operand of a header. -/
def base (inner : Tree) : Tree :=
  wrap "base_expression" [inner]

/-! ### Calls -/

/-- An argument, named or not. -/
def argument (name : Option String) (value : Tree) (line : UInt32) : Tree :=
  ⟨"arguments", (name.map (leaf "NAME" · line)).toList ++ [.tree value]⟩

/-- The names that a header binds. -/
def output (names : List String) (line : UInt32) : Tree :=
  ⟨"output", names.map (leaf "NAME" · line)⟩

/-- The names that a header binds, if it binds any. -/
def outputIfAny (names : List String) (line : UInt32) : List Tree :=
  if names.isEmpty then [] else [output names line]

/-- A service call. -/
def service (name : String) (command : Option String) (arguments : List Tree) (outputs : List String)
    (line : UInt32) : Tree :=
  let command := (command.map fun word => (⟨"command", [leaf "NAME" word line]⟩ : Tree)).toList
  wrap "service" [path name line, wrap "service_fragment" (command ++ arguments ++ outputIfAny outputs line)]

/-- A service call with or without a body. -/
def serviceBlock (service : Tree) (body : Option Tree) : Tree :=
  wrap "service_block" (service :: body.toList)

/-- A call of a function. -/
def call (name : String) (arguments : List Tree) (line : UInt32) : Tree :=
  wrap "call_expression" (path name line :: arguments)

/-! ### Mutations -/

/-- One mutation and its arguments. -/
def mutationFragment (name : String) (arguments : List Tree) (line : UInt32) : Tree :=
  ⟨"mutation_fragment", leaf "NAME" name line :: arguments.map .tree⟩

/-- A mutation applied to the result of the one before. -/
def chained (fragment : Tree) : Tree :=
  wrap "chained_mutation" [fragment]

/-- A subject and the mutations applied to it. -/
def mutation (subject fragment : Tree) (chained : List Tree) : Tree :=
  wrap "mutation" (subject :: fragment :: chained)

/-- A mutation with or without a body. -/
def mutationBlock (mutation : Tree) (body : Option Tree) : Tree :=
  wrap "mutation_block" (mutation :: body.toList)

/-- Mutations that continue the mutation of the line before. -/
def indentedChain (fragments : List Tree) : Tree :=
  wrap "indented_chain" (fragments.map chained)

/-! ### Statements -/

/-- The body of a block. -/
def body (statements : List Tree) : Tree :=
  wrap "nested_block" statements

/-- A whole script. -/
def script (statements : List Tree) : Tree :=
  wrap "start" (statements.map fun statement => wrap "block" [statement])

/-- An assignment to a path. -/
def assignment (target : String) (value : Tree) (line : UInt32) : Tree :=
  ⟨"assignment",
    [.tree (path target line), leaf "EQUALS" "=" line, .tree (wrap "assignment_fragment" [base value])]⟩

/-- An expression as a statement. -/
def absoluteExpression (expression : Tree) : Tree :=
  wrap "absolute_expression" [expression]

/-- `return`, with or without a value. -/
def returnStatement (value : Option Tree) (line : UInt32) : Tree :=
  ⟨"return_statement", leaf "RETURN" "return" line :: (value.map fun v => .tree (base v)).toList⟩

/-- `break`. -/
def breakStatement (line : UInt32) : Tree :=
  ⟨"break_statement", [leaf "BREAK" "break" line]⟩

/-- `throw`, with or without a value. -/
def throwStatement (value : Option Tree) (line : UInt32) : Tree :=
  ⟨"throw_statement", leaf "RAISE" "throw" line :: (value.map fun v => .tree (wrap "entity" [v])).toList⟩

/-- The import of the module at a path under a name. -/
def importStatement (path name : String) (line : UInt32) : Tree :=
  ⟨"imports", [leaf "IMPORT" "import" line, .tree (string path line), leaf "AS" "as" line, leaf "NAME" name line]⟩

/-! ### Blocks -/

/-- A keyword followed by an operand. -/
def header (tag : String) (keywords : List (String × String)) (operand : Tree) (line : UInt32) : Tree :=
  ⟨tag, keywords.map (fun keyword => leaf keyword.1 keyword.2 line) ++ [.tree operand]⟩

/-- `if`, with its body and the branches after it. -/
def ifBlock (condition : Tree) (statements : List Tree) (line : UInt32) (branches : List Tree) : Tree :=
  wrap "if_block" (header "if_statement" [("IF", "if")] (base condition) line :: body statements :: branches)

/-- `else if`. -/
def elseIfBlock (condition : Tree) (statements : List Tree) (line : UInt32) : Tree :=
  wrap "elseif_block"
    [header "elseif_statement" [("ELSE", "else"), ("IF", "if")] (base condition) line, body statements]

/-- `else`. -/
def elseBlock (statements : List Tree) (line : UInt32) : Tree :=
  header "else_block" [("ELSE", "else")] (body statements) line

/-- `foreach`. -/
def foreachBlock (subject : Tree) (outputs : List String) (statements : List Tree) (line : UInt32) : Tree :=
  wrap "foreach_block"
    [⟨"foreach_statement",
        [leaf "FOREACH" "foreach" line, .tree (wrap "entity" [subject]), .tree (output outputs line)]⟩,
      body statements]

/-- `while`. -/
def whileBlock (condition : Tree) (statements : List Tree) (line : UInt32) : Tree :=
  wrap "while_block" [header "while_statement" [("WHILE", "while")] (base condition) line, body statements]

/-- `try`, with its body and the branches after it. -/
def tryBlock (statements : List Tree) (line : UInt32) (branches : List Tree) : Tree :=
  ⟨"try_block", leaf "TRY" "try" line :: .tree (body statements) :: branches.map .tree⟩

/-- `catch`, which binds the error to a name. -/
def catchBlock (name : String) (statements : List Tree) (line : UInt32) : Tree :=
  wrap "catch_block"
    [⟨"catch_statement", [leaf "CATCH" "catch" line, leaf "NAME" name line]⟩, body statements]

/-- `finally`. -/
def finallyBlock (statements : List Tree) (line : UInt32) : Tree :=
  header "finally_block" [("FINALLY", "finally")] (body statements) line

/-- A parameter of a function and its type. -/
def parameter (name type : String) (line : UInt32) : Tree :=
  ⟨"function_argument", [leaf "NAME" name line, .tree (typeName type line)]⟩

/-- The declaration of a function: its parameters, the types that it returns, and its body. -/
def functionBlock (name : String) (parameters : List (String × String)) (returns : List String)
    (statements : List Tree) (line : UInt32) : Tree :=
  let parameters := parameters.map fun p => parameter p.1 p.2 line
  let returns := if returns.isEmpty then [] else [wrap "function_output" (returns.map (typeName · line))]
  wrap "function_block"
    [⟨"function_statement",
        leaf "FUNCTION" "function" line :: leaf "NAME" name line :: (parameters ++ returns).map .tree⟩,
      body statements]

/-- `when`, on a service call or on a path. -/
def whenBlock (target : Tree) (outputs : List String) (statements : List Tree) (line : UInt32) : Tree :=
  ⟨"when_block",
    leaf "WHEN" "when" line :: (target :: (outputIfAny outputs line ++ [body statements])).map .tree⟩

end Flowline.Shape
