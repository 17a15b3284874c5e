import Flowline.Proofs.Encoding
import Flowline.Tree.Codec

/-! Reading a tree gives back the tree that was written. The encodings of trees and tokens share no field, so a child
    is read as what it is although it carries no tag. Since no encoding holds a floating-point number, the text
    determines it, and what is read from a text is what was written to it. -/

namespace Flowline

/-! ### Words and positions -/

namespace Json

@[simp] theorem word?_nat (n : UInt32) : (nat n.toNat).word? = some n := by
  have hn : (n.toNat : Int) < 4294967296 := by exact_mod_cast n.toNat_lt
  simp [nat, word?, hn]

theorem optionalWord?_nat (n : UInt32) : optionalWord? (some (nat n.toNat)) = some (some n) := by
  rw [optionalWord?, word?_nat]
  · rfl
  · simp [nat]

@[simp] theorem floats_nat (n : Nat) : (nat n).floats = [] := rfl

theorem finite_of_floats {j : Json} (h : j.floats = []) : j.Finite := by
  intro x hx
  rw [h] at hx
  cases hx

end Json

namespace Position

theorem ofFields?_nat (line column : UInt32) (endColumn : Option Json) :
    ofFields? (.nat line.toNat) (.nat column.toNat) endColumn =
      (Json.optionalWord? endColumn).map fun last => ⟨line, column, last⟩ := by
  rw [ofFields?, Json.word?_nat, Json.word?_nat]
  cases Json.optionalWord? endColumn <;> rfl

/-- A position is read from its fields, with the last or without. -/
theorem ofJson?_fields (line column : Json) (endColumn : Option Json) :
    ofJson? (.object ([("line", line), ("column", column)] ++ Json.optional "end_column" id endColumn)) =
      ofFields? line column endColumn := by
  cases endColumn <;> simp [ofJson?, Json.optional, Json.required?, Json.field?]

theorem ofJson?_toJson (p : Position) : ofJson? p.toJson = some p := by
  obtain ⟨line, column, endColumn⟩ := p
  cases endColumn with
  | none => exact (ofJson?_fields _ _ none).trans (ofFields?_nat line column none)
  | some last =>
    refine (ofJson?_fields _ _ (some (.nat last.toNat))).trans ?_
    rw [ofFields?_nat, Json.optionalWord?_nat, Option.map_some]

@[simp] theorem floats_toJson (p : Position) : p.toJson.floats = [] := by
  have hlast (last : UInt32) : (Json.nat last.toNat).floats = [] := Json.floats_nat _
  simp [toJson, Json.floatsOfFields_optional hlast]

end Position

/-! ### Tokens and trees -/

namespace Token

theorem ofJson?_toJson (t : Token) : ofJson? t.toJson = some t := by
  simp [toJson, ofJson?, Json.required?, Json.field?, ofFields?, Json.string?, Position.ofJson?_toJson]

@[simp] theorem floats_toJson (t : Token) : t.toJson.floats = [] := by
  simp [toJson]

/-- The encoding of a tree has no kind. -/
theorem ofJson?_tree (t : Tree) : ofJson? t.toJson = none := by
  obtain ⟨tag, children⟩ := t
  simp [Tree.toJson, ofJson?, Json.required?, Json.field?]

end Token

namespace Tree

/-- The encoding of a token has no tag. -/
theorem ofJson?_token (t : Token) : ofJson? t.toJson = none := by
  simp [Token.toJson, ofJson?, Json.required?, Json.field?]

/-- A tree is read from its two fields as soon as its children are. -/
theorem ofJson?_fields (tag : String) (items : List Json) :
    ofJson? (.object [("data", .string tag), ("children", .array items)]) =
      (childrenOfJson? items).map (⟨tag, ·⟩) := by
  simp [ofJson?, Json.required?, Json.field?, childrenField?]

end Tree

mutual

theorem Tree.ofJson?_toJson : ∀ t : Tree, Tree.ofJson? t.toJson = some t
  | ⟨tag, children⟩ => by
    rw [Tree.toJson, Tree.ofJson?_fields, Tree.childrenOfJson?_childrenToJson children]
    rfl

theorem Tree.childrenOfJson?_childrenToJson :
    ∀ children : List Child, Tree.childrenOfJson? (Tree.childrenToJson children) = some children
  | [] => by rw [Tree.childrenToJson, Tree.childrenOfJson?]
  | .tree t :: rest => by
    have ht := Tree.ofJson?_toJson t
    have hrest := Tree.childrenOfJson?_childrenToJson rest
    simp [Tree.childrenToJson, Tree.childrenOfJson?, ht, hrest]
  | .token t :: rest => by
    have hrest := Tree.childrenOfJson?_childrenToJson rest
    simp [Tree.childrenToJson, Tree.childrenOfJson?, Tree.ofJson?_token, Token.ofJson?_toJson, hrest]

end

mutual

theorem Tree.floats_toJson : ∀ t : Tree, t.toJson.floats = []
  | ⟨_, children⟩ => by simp [Tree.toJson, Tree.floats_childrenToJson children]

theorem Tree.floats_childrenToJson :
    ∀ children : List Child, Json.floatsOfItems (Tree.childrenToJson children) = []
  | [] => rfl
  | .tree t :: rest => by simp [Tree.childrenToJson, Tree.floats_toJson t, Tree.floats_childrenToJson rest]
  | .token t :: rest => by simp [Tree.childrenToJson, Tree.floats_childrenToJson rest]

end

namespace Child

theorem ofJson?_toJson (c : Child) : ofJson? c.toJson = some c := by
  cases c with
  | tree t => simp [toJson, ofJson?, Tree.ofJson?_toJson]
  | token t => simp [toJson, ofJson?, Tree.ofJson?_token, Token.ofJson?_toJson]

theorem floats_toJson (c : Child) : c.toJson.floats = [] := by
  cases c with
  | tree t => exact t.floats_toJson
  | token t => exact t.floats_toJson

end Child

/-! ### Round trips -/

/-- Reading undoes writing: on the encodings themselves, on every finite JSON value of the same text, and on what was
    read from any other form. -/
structure Roundtrips {α : Type} (toJson : α → Json) (ofJson? : Json → Option α) : Prop where
  /-- An encoding is read as what it encodes. -/
  value : ∀ a, ofJson? (toJson a) = some a
  /-- The text of an encoding is read as what it encodes. -/
  text : ∀ a j, j.Finite → j.render = (toJson a).render → ofJson? j = some a
  /-- What was read from any form is read again, the same, from its encoding. -/
  again : ∀ j a, ofJson? j = some a → ofJson? (toJson a) = ofJson? j

/-- Without floating-point numbers the text of an encoding is as good as the encoding. -/
theorem Roundtrips.of_value {α : Type} {toJson : α → Json} {ofJson? : Json → Option α}
    (hvalue : ∀ a, ofJson? (toJson a) = some a) (hfloats : ∀ a, (toJson a).floats = []) :
    Roundtrips toJson ofJson? where
  value := hvalue
  text a j hj h := by
    rw [Json.render_inj hj (Json.finite_of_floats (hfloats a)) h]
    exact hvalue a
  again j a h := by rw [hvalue, h]

/-- Positions, tokens, trees and children are read back from their encodings, and a token is never taken for a tree
    nor a tree for a token. -/
theorem decoding_roundtrips :
    Roundtrips Position.toJson Position.ofJson? ∧ Roundtrips Token.toJson Token.ofJson? ∧
      Roundtrips Tree.toJson Tree.ofJson? ∧ Roundtrips Child.toJson Child.ofJson? ∧
      (∀ t : Token, Tree.ofJson? t.toJson = none ∧ Child.ofJson? t.toJson = some (.token t)) ∧
      ∀ t : Tree, Token.ofJson? t.toJson = none ∧ Child.ofJson? t.toJson = some (.tree t) :=
  ⟨.of_value Position.ofJson?_toJson Position.floats_toJson, .of_value Token.ofJson?_toJson Token.floats_toJson,
    .of_value Tree.ofJson?_toJson Tree.floats_toJson, .of_value Child.ofJson?_toJson Child.floats_toJson,
    fun t => ⟨Tree.ofJson?_token t, Child.ofJson?_toJson (.token t)⟩,
    fun t => ⟨Token.ofJson?_tree t, Child.ofJson?_toJson (.tree t)⟩⟩

-- Fields in another order with an unknown one among them, and below them lists that leave the optional ones out.
example :
    Tree.ofJson? (.object [("note", .null),
        ("children", .array [.array [.string "NAME", .string "x", .array [.nat 1, .nat 2]], .array [.string "path"]]),
        ("data", .string "path")]) =
      some ⟨"path", [.token ⟨"NAME", "x", ⟨1, 2, none⟩⟩, .tree ⟨"path", []⟩]⟩ := by
  cbv

end Flowline
