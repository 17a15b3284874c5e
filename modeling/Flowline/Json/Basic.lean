import Flowline.Number.Literal

/-! JSON values. An object keeps its fields in order and may repeat a name. -/

namespace Flowline

/-- A JSON value. -/
inductive Json where
  | null
  | bool (value : Bool)
  | number (value : Number)
  | string (text : String)
  | array (items : List Json)
  | object (fields : List (String × Json))
deriving Inhabited

namespace Json

/-- A whole number. -/
def nat (n : Nat) : Json :=
  .number (.int n)

/-- A value that may be absent, `null` standing for none. -/
def orNull {α : Type} (encode : α → Json) : Option α → Json
  | none => .null
  | some a => encode a

/-- An array of texts. -/
def texts (items : List String) : Json :=
  .array (items.map .string)

/-- The field `name` with an encoded value, or no field. -/
def optional {α : Type} (name : String) (encode : α → Json) : Option α → List (String × Json)
  | none => []
  | some a => [(name, encode a)]

end Json

end Flowline
