import Flowline.Json.Basic
import Flowline.Value.Basic

/-!
Values as JSON. Numbers and truth values are written bare, every other value as an object that starts with
its kind.
-/

namespace Flowline

/-- An object that starts with its kind. -/
def Json.tagged (kind : String) (fields : List (String × Json)) : Json :=
  .object (("$OBJECT", .string kind) :: fields)

mutual

/-- A value as JSON. -/
def Value.toJson : Value → Json
  | .string text none => .tagged "string" [("string", .string text)]
  | .string text (some values) =>
    .tagged "string" [("string", .string text), ("values", .array (Value.listToJson values))]
  | .number number => .number number
  | .boolean value => .bool value
  | .file text => .tagged "file" [("string", .string text)]
  | .list items => .tagged "list" [("items", .array (Value.listToJson items))]
  | .dict items => .tagged "dict" [("items", .array (Value.pairsToJson items))]
  | .path segments => .tagged "path" [("paths", .array (Segment.listToJson segments))]
  | .type name => .tagged "type" [("type", .string name)]
  | .expression template values =>
    .tagged "expression" [("expression", .string template), ("values", .array (Value.listToJson values))]
  | .call service command output arguments =>
    .tagged "method"
      [("method", .string "execute"), ("service", .string service), ("command", Json.orNull .string command),
        ("output", Json.orNull Json.texts output), ("args", .array (Argument.listToJson arguments))]
  | .argument argument => argument.toJson
  | .mutation name arguments =>
    .tagged "mutation" [("mutation", .string name), ("arguments", .array (Argument.listToJson arguments))]

/-- Values as JSON. -/
def Value.listToJson : List Value → List Json
  | [] => []
  | value :: rest => value.toJson :: Value.listToJson rest

/-- Pairs of a key and a value as JSON. -/
def Value.pairsToJson : List (Value × Value) → List Json
  | [] => []
  | (key, value) :: rest => .array [key.toJson, value.toJson] :: Value.pairsToJson rest

/-- A segment as JSON. -/
def Segment.toJson : Segment → Json
  | .name text => .string text
  | .computed value => value.toJson

/-- Segments as JSON. -/
def Segment.listToJson : List Segment → List Json
  | [] => []
  | segment :: rest => segment.toJson :: Segment.listToJson rest

/-- An argument as JSON. -/
def Argument.toJson : Argument → Json
  | ⟨name, value⟩ => .tagged "argument" [("name", Json.orNull .string name), ("argument", value.toJson)]

/-- Arguments as JSON. -/
def Argument.listToJson : List Argument → List Json
  | [] => []
  | argument :: rest => argument.toJson :: Argument.listToJson rest

end

end Flowline
