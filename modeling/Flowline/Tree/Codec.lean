import Flowline.Json.Basic
import Flowline.Tree.Basic

/-!
Trees as JSON. Each record is written as an object and may be read from an object, whose unknown fields
are ignored and whose known ones may not be repeated, or from the list of its fields in order. A position
may lack its end column and a tree its children. A child is read as a tree if it can be, and else as a
token.
-/

namespace Flowline

namespace Json

/-- The value of the field `name`: `some none` if there is none, and `none` if there are several. -/
def field? (fields : List (String × Json)) (name : String) : Option (Option Json) :=
  match fields.filter (·.1 == name) with
  | [] => some none
  | [(_, value)] => some (some value)
  | _ => none

/-- The value of a field that must be there. -/
def required? (fields : List (String × Json)) (name : String) : Option Json :=
  (field? fields name).join

/-- A whole number of 32 bits. -/
def word? : Json → Option UInt32
  | .number (.int n) => if 0 ≤ n && n < 4294967296 then some (UInt32.ofNat n.toNat) else none
  | _ => none

/-- A whole number of 32 bits or `null`, or nothing at all. -/
def optionalWord? : Option Json → Option (Option UInt32)
  | none => some none
  | some .null => some none
  | some j => j.word?.map some

/-- A string. -/
def string? : Json → Option String
  | .string text => some text
  | _ => none

end Json

namespace Position

/-- A position as JSON. -/
def toJson (p : Position) : Json :=
  .object ([("line", .nat p.line.toNat), ("column", .nat p.column.toNat)] ++
    Json.optional "end_column" (fun last => .nat last.toNat) p.endColumn)

/-- A position from its fields. -/
def ofFields? (line column : Json) (endColumn : Option Json) : Option Position := do
  return ⟨← line.word?, ← column.word?, ← Json.optionalWord? endColumn⟩

/-- Reads a position. -/
def ofJson? : Json → Option Position
  | .object fields => do
    ofFields? (← Json.required? fields "line") (← Json.required? fields "column") (← Json.field? fields "end_column")
  | .array [line, column] => ofFields? line column none
  | .array [line, column, endColumn] => ofFields? line column (some endColumn)
  | _ => none

end Position

namespace Token

/-- A token as JSON. -/
def toJson (t : Token) : Json :=
  .object [("kind", .string t.kind), ("value", .string t.value), ("position", t.position.toJson)]

/-- A token from its fields. -/
def ofFields? (kind value position : Json) : Option Token := do
  return ⟨← kind.string?, ← value.string?, ← Position.ofJson? position⟩

/-- Reads a token. -/
def ofJson? : Json → Option Token
  | .object fields => do
    ofFields? (← Json.required? fields "kind") (← Json.required? fields "value") (← Json.required? fields "position")
  | .array [kind, value, position] => ofFields? kind value position
  | _ => none

end Token

mutual

/-- A tree as JSON. -/
def Tree.toJson : Tree → Json
  | ⟨tag, children⟩ => .object [("data", .string tag), ("children", .array (Tree.childrenToJson children))]

/-- The children of a tree as JSON. -/
def Tree.childrenToJson : List Child → List Json
  | [] => []
  | .tree t :: rest => t.toJson :: Tree.childrenToJson rest
  | .token t :: rest => t.toJson :: Tree.childrenToJson rest

end

mutual

/-- Reads a tree. -/
def Tree.ofJson? : Json → Option Tree
  | .object fields =>
    match Json.required? fields "data" with
    | some (.string tag) =>
      if (fields.filter (·.1 == "children")).length ≤ 1 then (Tree.childrenField? fields).map (⟨tag, ·⟩) else none
    | _ => none
  | .array [.string tag] => some ⟨tag, []⟩
  | .array [.string tag, .array items] => (Tree.childrenOfJson? items).map (⟨tag, ·⟩)
  | _ => none

/-- Reads the children from the first field that holds them; without one there are none. -/
def Tree.childrenField? : List (String × Json) → Option (List Child)
  | [] => some []
  | (name, value) :: rest =>
    if name = "children" then
      match value with
      | .array items => Tree.childrenOfJson? items
      | _ => none
    else Tree.childrenField? rest

/-- Reads children. -/
def Tree.childrenOfJson? : List Json → Option (List Child)
  | [] => some []
  | item :: rest =>
    match Tree.ofJson? item with
    | some t => (Tree.childrenOfJson? rest).map (.tree t :: ·)
    | none =>
      match Token.ofJson? item with
      | some token => (Tree.childrenOfJson? rest).map (.token token :: ·)
      | none => none

end

namespace Child

/-- A child as JSON. -/
def toJson : Child → Json
  | .tree t => t.toJson
  | .token t => t.toJson

/-- Reads a child. -/
def ofJson? (j : Json) : Option Child :=
  (Tree.ofJson? j).map .tree <|> (Token.ofJson? j).map .token

end Child

end Flowline
