import Flowline.Manifest
import Flowline.Proofs.JsonText

/-! The text of a manifest loses nothing. Each value, line and registry is encoded so that it can be told from its
    JSON: the kind of a value by its tag, the fields of a line by their names. With the texts of JSON values this
    gives different texts to different manifests, as long as they hold no infinity and no NaN. -/

namespace Flowline

/-! ### Floating-point numbers in manifests -/

mutual

/-- The floating-point numbers in a value. -/
def Value.floats : Value → List Binary64
  | .string _ none => []
  | .string _ (some values) => Value.floatsOfList values
  | .number (.int _) => []
  | .number (.float x) => [x]
  | .boolean _ => []
  | .file _ => []
  | .list items => Value.floatsOfList items
  | .dict items => Value.floatsOfPairs items
  | .path segments => Segment.floatsOfList segments
  | .type _ => []
  | .expression _ values => Value.floatsOfList values
  | .call _ _ _ arguments => Argument.floatsOfList arguments
  | .argument argument => argument.floats
  | .mutation _ arguments => Argument.floatsOfList arguments

/-- The floating-point numbers in values. -/
def Value.floatsOfList : List Value → List Binary64
  | [] => []
  | value :: rest => value.floats ++ Value.floatsOfList rest

/-- The floating-point numbers in pairs of a key and a value. -/
def Value.floatsOfPairs : List (Value × Value) → List Binary64
  | [] => []
  | (key, value) :: rest => key.floats ++ value.floats ++ Value.floatsOfPairs rest

/-- The floating-point numbers in a segment. -/
def Segment.floats : Segment → List Binary64
  | .name _ => []
  | .computed value => value.floats

/-- The floating-point numbers in segments. -/
def Segment.floatsOfList : List Segment → List Binary64
  | [] => []
  | segment :: rest => segment.floats ++ Segment.floatsOfList rest

/-- The floating-point numbers in an argument. -/
def Argument.floats : Argument → List Binary64
  | ⟨_, value⟩ => value.floats

/-- The floating-point numbers in arguments. -/
def Argument.floatsOfList : List Argument → List Binary64
  | [] => []
  | argument :: rest => argument.floats ++ Argument.floatsOfList rest

end

/-- The floating-point numbers in the name and the operands of a line. -/
def Line.floats (l : Line) : List Binary64 :=
  Segment.floatsOfList (l.name.getD []) ++ Value.floatsOfList (l.args.getD [])

/-- No floating-point number in a manifest is infinite or a NaN. -/
def Manifest.Finite (m : Manifest) : Prop :=
  ∀ l ∈ m.lines, ∀ x ∈ l.floats, x.isFinite = true

instance (m : Manifest) : Decidable m.Finite :=
  inferInstanceAs (Decidable (∀ l ∈ m.lines, ∀ x ∈ l.floats, x.isFinite = true))

namespace Json

@[simp] theorem floats_string (text : String) : (string text).floats = [] := rfl

@[simp] theorem floats_array (items : List Json) : (array items).floats = floatsOfItems items := rfl

@[simp] theorem floats_object (fields : List (String × Json)) : (object fields).floats = floatsOfFields fields := rfl

@[simp] theorem floatsOfItems_nil : floatsOfItems [] = [] := rfl

@[simp] theorem floatsOfItems_cons (item : Json) (items : List Json) :
    floatsOfItems (item :: items) = item.floats ++ floatsOfItems items := rfl

@[simp] theorem floatsOfFields_nil : floatsOfFields [] = [] := rfl

@[simp] theorem floatsOfFields_cons (name : String) (value : Json) (fields : List (String × Json)) :
    floatsOfFields ((name, value) :: fields) = value.floats ++ floatsOfFields fields := rfl

@[simp] theorem floatsOfFields_append (fields fields' : List (String × Json)) :
    floatsOfFields (fields ++ fields') = floatsOfFields fields ++ floatsOfFields fields' := by
  induction fields with
  | nil => rfl
  | cons field fields ih =>
    obtain ⟨name, value⟩ := field
    simp [ih]

@[simp] theorem floats_texts (items : List String) : (texts items).floats = [] := by
  induction items with
  | nil => rfl
  | cons text items ih => exact ih

theorem floats_orNull {α : Type} {encode : α → Json} (h : ∀ a, (encode a).floats = []) (o : Option α) :
    (orNull encode o).floats = [] := by
  cases o with
  | none => rfl
  | some a => exact h a

theorem floatsOfFields_optional {α : Type} {encode : α → Json} (h : ∀ a, (encode a).floats = []) (name : String)
    (o : Option α) : floatsOfFields (optional name encode o) = [] := by
  cases o with
  | none => rfl
  | some a => simpa [optional] using h a

theorem floatsOfFields_map {α : Type} (xs : List α) (key : α → String) (encode : α → Json) :
    floatsOfFields (xs.map fun a => (key a, encode a)) = xs.flatMap fun a => (encode a).floats := by
  induction xs with
  | nil => rfl
  | cons a xs ih => simp [ih]

end Json

mutual

theorem Value.floats_toJson : ∀ v : Value, v.toJson.floats = v.floats
  | .string _ none => rfl
  | .string _ (some values) => by
    simp [Value.toJson, Json.tagged, Value.floats, Value.floats_listToJson values]
  | .number (.int _) => rfl
  | .number (.float _) => rfl
  | .boolean _ => rfl
  | .file _ => rfl
  | .list items => by simp [Value.toJson, Json.tagged, Value.floats, Value.floats_listToJson items]
  | .dict items => by simp [Value.toJson, Json.tagged, Value.floats, Value.floats_pairsToJson items]
  | .path segments => by
    simp [Value.toJson, Json.tagged, Value.floats, Segment.floats_listToJson segments]
  | .type _ => rfl
  | .expression _ values => by
    simp [Value.toJson, Json.tagged, Value.floats, Value.floats_listToJson values]
  | .call _ command output arguments => by
    have hcommand := Json.floats_orNull Json.floats_string command
    have houtput := Json.floats_orNull Json.floats_texts output
    simp [Value.toJson, Json.tagged, Value.floats, hcommand, houtput, Argument.floats_listToJson arguments]
  | .argument argument => Argument.floats_toJson argument
  | .mutation _ arguments => by
    simp [Value.toJson, Json.tagged, Value.floats, Argument.floats_listToJson arguments]

theorem Value.floats_listToJson :
    ∀ values : List Value, Json.floatsOfItems (Value.listToJson values) = Value.floatsOfList values
  | [] => rfl
  | value :: rest => by
    rw [Value.listToJson, Json.floatsOfItems, Value.floatsOfList, Value.floats_toJson value,
      Value.floats_listToJson rest]

theorem Value.floats_pairsToJson :
    ∀ pairs : List (Value × Value), Json.floatsOfItems (Value.pairsToJson pairs) = Value.floatsOfPairs pairs
  | [] => rfl
  | (key, value) :: rest => by
    simp [Value.pairsToJson, Value.floatsOfPairs, Value.floats_toJson key, Value.floats_toJson value,
      Value.floats_pairsToJson rest]

theorem Segment.floats_toJson : ∀ segment : Segment, segment.toJson.floats = segment.floats
  | .name _ => rfl
  | .computed value => Value.floats_toJson value

theorem Segment.floats_listToJson :
    ∀ segments : List Segment, Json.floatsOfItems (Segment.listToJson segments) = Segment.floatsOfList segments
  | [] => rfl
  | segment :: rest => by
    rw [Segment.listToJson, Json.floatsOfItems, Segment.floatsOfList, Segment.floats_toJson segment,
      Segment.floats_listToJson rest]

theorem Argument.floats_toJson : ∀ argument : Argument, argument.toJson.floats = argument.floats
  | ⟨name, value⟩ => by
    have hname := Json.floats_orNull Json.floats_string name
    simp [Argument.toJson, Json.tagged, Argument.floats, hname, Value.floats_toJson value]

theorem Argument.floats_listToJson :
    ∀ arguments : List Argument, Json.floatsOfItems (Argument.listToJson arguments) = Argument.floatsOfList arguments
  | [] => rfl
  | argument :: rest => by
    rw [Argument.listToJson, Json.floatsOfItems, Argument.floatsOfList, Argument.floats_toJson argument,
      Argument.floats_listToJson rest]

end

@[simp] theorem Address.floats_toJson (a : Address) : a.toJson.floats = [] := rfl

theorem Line.floats_toJson (l : Line) : l.toJson.floats = l.floats := by
  have hname :
      Json.floatsOfFields (Json.optional "name" (fun segments => .array (Segment.listToJson segments)) l.name) =
        Segment.floatsOfList (l.name.getD []) := by
    cases l.name with
    | none => rfl
    | some segments => simpa [Json.optional] using Segment.floats_listToJson segments
  have hargs :
      Json.floatsOfFields (Json.optional "args" (fun values => .array (Value.listToJson values)) l.args) =
        Value.floatsOfList (l.args.getD []) := by
    cases l.args with
    | none => rfl
    | some values => simpa [Json.optional] using Value.floats_listToJson values
  simp [Line.toJson, Line.floats, hname, hargs, Json.floatsOfFields_optional Json.floats_string,
    Json.floatsOfFields_optional Json.floats_texts, Json.floatsOfFields_optional Address.floats_toJson]

theorem Manifest.finite_toJson {m : Manifest} (h : m.Finite) : m.toJson.Finite := by
  have hentrypoint := Json.floats_orNull Address.floats_toJson m.entrypoint
  have hfloats : m.toJson.floats = m.lines.flatMap Line.floats := by
    simp [Manifest.toJson, Json.floatsOfFields_map, Line.floats_toJson, hentrypoint]
  intro x hx
  rw [hfloats, List.mem_flatMap] at hx
  obtain ⟨l, hl, hx⟩ := hx
  exact h l hl x hx

/-! ### Values are told from their JSON -/

namespace Json

theorem orNull_inj {α : Type} {encode : α → Json} (hinj : Function.Injective encode) (hnull : ∀ a, encode a ≠ null)
    {o o' : Option α} (h : orNull encode o = orNull encode o') : o = o' := by
  cases o with
  | none =>
    cases o' with
    | none => rfl
    | some a' => exact absurd h.symm (hnull a')
  | some a =>
    cases o' with
    | none => exact absurd h (hnull a)
    | some a' => rw [hinj h]

theorem string_injective : Function.Injective string := fun _ _ h => string.inj h

theorem texts_injective : Function.Injective texts := fun _ _ h =>
  List.map_injective_iff.mpr string_injective (array.inj h)

/-- The kind that an object is tagged with. -/
def tag? : Json → Option String
  | .object ((_, .string kind) :: _) => some kind
  | _ => none

end Json

theorem Value.tag?_toJson (v : Value) : v.toJson.tag? = v.kind? := by
  cases v with
  | string text values => cases values <;> rfl
  | argument argument =>
    obtain ⟨name, value⟩ := argument
    rfl
  | _ => rfl

/-- Values with the same JSON are of the same kind. -/
theorem Value.kind?_eq {v v' : Value} (h : v.toJson = v'.toJson) : v.kind? = v'.kind? := by
  rw [← tag?_toJson, ← tag?_toJson, h]

/-- No value is written as a text alone, which is how the names in a path are written. -/
theorem Value.toJson_ne_string (v : Value) (text : String) : v.toJson ≠ .string text := by
  cases v with
  | string text values => cases values <;> nofun
  | argument argument =>
    obtain ⟨name, value⟩ := argument
    nofun
  | _ => nofun

mutual

theorem Value.toJson_inj : ∀ (v v' : Value), v.toJson = v'.toJson → v = v'
  | .string text none, v', h => by
    cases v' with
    | string text' values' =>
      cases values' with
      | none => simpa [Value.toJson, Json.tagged] using h
      | some values' => simp [Value.toJson, Json.tagged] at h
    | _ => simpa [Value.kind?] using Value.kind?_eq h
  | .string text (some values), v', h => by
    cases v' with
    | string text' values' =>
      cases values' with
      | none => simp [Value.toJson, Json.tagged] at h
      | some values' =>
        obtain ⟨rfl, hvalues⟩ : text = text' ∧ Value.listToJson values = Value.listToJson values' := by
          simpa [Value.toJson, Json.tagged] using h
        rw [Value.listToJson_inj values values' hvalues]
    | _ => simpa [Value.kind?] using Value.kind?_eq h
  | .number n, v', h => by
    cases v' with
    | number n' => rw [Json.number.inj h]
    | boolean b' => cases h
    | _ => simpa [Value.kind?] using Value.kind?_eq h
  | .boolean b, v', h => by
    cases v' with
    | boolean b' => rw [Json.bool.inj h]
    | number n' => cases h
    | _ => simpa [Value.kind?] using Value.kind?_eq h
  | .file text, v', h => by
    cases v' with
    | file text' => simpa [Value.toJson, Json.tagged] using h
    | _ => simpa [Value.kind?] using Value.kind?_eq h
  | .list items, v', h => by
    cases v' with
    | list items' =>
      rw [Value.listToJson_inj items items' (by simpa [Value.toJson, Json.tagged] using h)]
    | _ => simpa [Value.kind?] using Value.kind?_eq h
  | .dict items, v', h => by
    cases v' with
    | dict items' =>
      rw [Value.pairsToJson_inj items items' (by simpa [Value.toJson, Json.tagged] using h)]
    | _ => simpa [Value.kind?] using Value.kind?_eq h
  | .path segments, v', h => by
    cases v' with
    | path segments' =>
      rw [Segment.listToJson_inj segments segments' (by simpa [Value.toJson, Json.tagged] using h)]
    | _ => simpa [Value.kind?] using Value.kind?_eq h
  | .type name, v', h => by
    cases v' with
    | type name' => simpa [Value.toJson, Json.tagged] using h
    | _ => simpa [Value.kind?] using Value.kind?_eq h
  | .expression template values, v', h => by
    cases v' with
    | expression template' values' =>
      obtain ⟨rfl, hvalues⟩ : template = template' ∧ Value.listToJson values = Value.listToJson values' := by
        simpa [Value.toJson, Json.tagged] using h
      rw [Value.listToJson_inj values values' hvalues]
    | _ => simpa [Value.kind?] using Value.kind?_eq h
  | .call service command output arguments, v', h => by
    cases v' with
    | call service' command' output' arguments' =>
      obtain ⟨rfl, hcommand, houtput, harguments⟩ : service = service' ∧
          Json.orNull .string command = Json.orNull .string command' ∧
          Json.orNull Json.texts output = Json.orNull Json.texts output' ∧
          Argument.listToJson arguments = Argument.listToJson arguments' := by
        simpa [Value.toJson, Json.tagged] using h
      rw [Json.orNull_inj Json.string_injective nofun hcommand, Json.orNull_inj Json.texts_injective nofun houtput,
        Argument.listToJson_inj arguments arguments' harguments]
    | _ => simpa [Value.kind?] using Value.kind?_eq h
  | .argument argument, v', h => by
    cases v' with
    | argument argument' => rw [Argument.toJson_inj argument argument' h]
    | _ => simpa [Value.kind?] using Value.kind?_eq h
  | .mutation name arguments, v', h => by
    cases v' with
    | mutation name' arguments' =>
      obtain ⟨rfl, harguments⟩ : name = name' ∧ Argument.listToJson arguments = Argument.listToJson arguments' := by
        simpa [Value.toJson, Json.tagged] using h
      rw [Argument.listToJson_inj arguments arguments' harguments]
    | _ => simpa [Value.kind?] using Value.kind?_eq h
termination_by structural v => v

theorem Value.listToJson_inj :
    ∀ values values' : List Value, Value.listToJson values = Value.listToJson values' → values = values'
  | [], [], _ => rfl
  | [], _ :: _, h => nomatch h
  | _ :: _, [], h => nomatch h
  | value :: rest, value' :: rest', h => by
    obtain ⟨hvalue, hrest⟩ := List.cons.inj h
    rw [Value.toJson_inj value value' hvalue, Value.listToJson_inj rest rest' hrest]
termination_by structural values => values

theorem Value.pairsToJson_inj :
    ∀ pairs pairs' : List (Value × Value), Value.pairsToJson pairs = Value.pairsToJson pairs' → pairs = pairs'
  | [], [], _ => rfl
  | [], _ :: _, h => nomatch h
  | _ :: _, [], h => nomatch h
  | (key, value) :: rest, (key', value') :: rest', h => by
    obtain ⟨⟨hkey, hvalue⟩, hrest⟩ : (key.toJson = key'.toJson ∧ value.toJson = value'.toJson) ∧
        Value.pairsToJson rest = Value.pairsToJson rest' := by
      simpa [Value.pairsToJson] using h
    rw [Value.toJson_inj key key' hkey, Value.toJson_inj value value' hvalue,
      Value.pairsToJson_inj rest rest' hrest]
termination_by structural pairs => pairs

theorem Segment.toJson_inj : ∀ segment segment' : Segment, segment.toJson = segment'.toJson → segment = segment'
  | .name _, .name _, h => by rw [Json.string.inj h]
  | .name _, .computed value', h => absurd h.symm (Value.toJson_ne_string value' _)
  | .computed value, .name _, h => absurd h (Value.toJson_ne_string value _)
  | .computed value, .computed value', h => by rw [Value.toJson_inj value value' h]
termination_by structural segment => segment

theorem Segment.listToJson_inj : ∀ segments segments' : List Segment,
    Segment.listToJson segments = Segment.listToJson segments' → segments = segments'
  | [], [], _ => rfl
  | [], _ :: _, h => nomatch h
  | _ :: _, [], h => nomatch h
  | segment :: rest, segment' :: rest', h => by
    obtain ⟨hsegment, hrest⟩ := List.cons.inj h
    rw [Segment.toJson_inj segment segment' hsegment, Segment.listToJson_inj rest rest' hrest]
termination_by structural segments => segments

theorem Argument.toJson_inj : ∀ argument argument' : Argument, argument.toJson = argument'.toJson → argument = argument'
  | ⟨name, value⟩, ⟨name', value'⟩, h => by
    obtain ⟨hname, hvalue⟩ : Json.orNull .string name = Json.orNull .string name' ∧ value.toJson = value'.toJson := by
      simpa [Argument.toJson, Json.tagged] using h
    rw [Json.orNull_inj Json.string_injective nofun hname, Value.toJson_inj value value' hvalue]
termination_by structural argument => argument

theorem Argument.listToJson_inj : ∀ arguments arguments' : List Argument,
    Argument.listToJson arguments = Argument.listToJson arguments' → arguments = arguments'
  | [], [], _ => rfl
  | [], _ :: _, h => nomatch h
  | _ :: _, [], h => nomatch h
  | argument :: rest, argument' :: rest', h => by
    obtain ⟨hargument, hrest⟩ := List.cons.inj h
    rw [Argument.toJson_inj argument argument' hargument, Argument.listToJson_inj rest rest' hrest]
termination_by structural arguments => arguments

end

/-! ### Lines and manifests are told from their JSON -/

theorem Method.ofName?_name (method : Method) : ofName? method.name = some method := by
  cases method <;> rfl

theorem Method.name_injective : Function.Injective Method.name := fun method method' h =>
  Option.some.inj ((ofName?_name method).symm.trans ((congrArg ofName? h).trans (ofName?_name method')))

theorem Address.toJson_injective : Function.Injective Address.toJson := fun ⟨_⟩ ⟨_⟩ h =>
  congrArg Address.mk (Json.string.inj h)

@[simp] theorem Json.lookup_optional {α : Type} (key name : String) (encode : α → Json) (o : Option α) :
    (Json.optional name encode o).lookup key = if key = name then o.map encode else none := by
  cases o with
  | none => simp [Json.optional]
  | some a =>
    by_cases hkey : key = name
    · simp [Json.optional, hkey]
    · simp [Json.optional, List.lookup, hkey, beq_eq_false_iff_ne.mpr hkey]

theorem Line.toJson_inj {l l' : Line} (haddress : l.address = l'.address) (h : l.toJson = l'.toJson) : l = l' := by
  have hsegments : Function.Injective fun segments => Json.array (Segment.listToJson segments) :=
    fun a b h => Segment.listToJson_inj a b (Json.array.inj h)
  have hvalues : Function.Injective fun values => Json.array (Value.listToJson values) :=
    fun a b h => Value.listToJson_inj a b (Json.array.inj h)
  simp only [Line.toJson, Json.object.injEq, List.append_assoc, List.cons_append, List.nil_append, List.cons.injEq,
    Prod.mk.injEq, Json.string.injEq, true_and] at h
  obtain ⟨hmethod, hline, hfields⟩ := h
  -- A field that one line lacks shifts those after it, so they are compared by their keys and not by their places.
  have hfield (key : String) := congrArg (List.lookup key) hfields
  simp only [List.lookup_append, Json.lookup_optional] at hfield
  have hname : l.name = l'.name := Option.map_injective hsegments (by simpa using hfield "name")
  have hservice : l.service = l'.service := Option.map_injective Json.string_injective (by simpa using hfield "service")
  have hcommand : l.command = l'.command := Option.map_injective Json.string_injective (by simpa using hfield "command")
  have hfunction : l.function = l'.function :=
    Option.map_injective Json.string_injective (by simpa using hfield "function")
  have hargs : l.args = l'.args := Option.map_injective hvalues (by simpa using hfield "args")
  have houtput : l.output = l'.output := Option.map_injective Json.texts_injective (by simpa using hfield "output")
  have henter : l.enter = l'.enter := Option.map_injective Address.toJson_injective (by simpa using hfield "enter")
  have hexit : l.exit = l'.exit := Option.map_injective Address.toJson_injective (by simpa using hfield "exit")
  have hparent : l.parent = l'.parent := Option.map_injective Address.toJson_injective (by simpa using hfield "parent")
  have hnext : l.next = l'.next := Option.map_injective Address.toJson_injective (by simpa using hfield "next")
  have hsource : l.sourceLine = l'.sourceLine := UInt32.toNat_inj.mp (Nat.repr_injective hline)
  cases l
  cases l'
  simp only [Line.mk.injEq]
  exact ⟨haddress, Method.name_injective hmethod, hsource, hname, hservice, hcommand, hfunction, hargs, houtput, henter,
    hexit, hparent, hnext⟩

theorem Manifest.toJson_inj {m m' : Manifest} (h : m.toJson = m'.toJson) : m = m' := by
  have hline : Function.Injective fun l : Line => (l.address.text, l.toJson) := fun l l' h => by
    obtain ⟨htext, hjson⟩ := Prod.mk.inj h
    exact Line.toJson_inj (congrArg Address.mk htext) hjson
  have hfunction : Function.Injective fun f : String × Address => (f.1, f.2.toJson) := fun f f' h => by
    obtain ⟨hname, haddress⟩ := Prod.mk.inj h
    exact Prod.ext hname (Address.toJson_injective haddress)
  have hmodule : Function.Injective fun entry : String × String => (entry.1, Json.string entry.2) := fun e e' h => by
    obtain ⟨halias, hpath⟩ := Prod.mk.inj h
    exact Prod.ext halias (Json.string.inj hpath)
  simp only [Manifest.toJson, Json.object.injEq, List.cons.injEq, Prod.mk.injEq, Json.string.injEq, true_and,
    and_true] at h
  obtain ⟨hlines, hversion, hservices, hfunctions, hentrypoint, hmodules⟩ := h
  cases m
  cases m'
  simp only [Manifest.mk.injEq]
  exact ⟨List.map_injective_iff.mpr hline hlines, hversion, Json.texts_injective hservices,
    List.map_injective_iff.mpr hfunction hfunctions, Json.orNull_inj Address.toJson_injective nofun hentrypoint,
    List.map_injective_iff.mpr hmodule hmodules⟩

/-! ### The text of a manifest -/

theorem Manifest.render_isText (m : Manifest) : Json.IsText m.render := by
  rw [Manifest.render, Json.render, Json.IsText, String.toList_ofList]
  exact (Json.isValue_chars m.toJson).element

/-- The text of a manifest is JSON. Two manifests without an infinity or a NaN have the same text only if they are the
    same. -/
theorem render_isText_and_injective {m m' : Manifest} (hm : m.Finite) (hm' : m'.Finite) :
    Json.IsText m.render ∧ (m.render = m'.render ↔ m = m') := by
  refine ⟨m.render_isText, fun h => ?_, fun h => h ▸ rfl⟩
  exact Manifest.toJson_inj (Json.render_inj (Manifest.finite_toJson hm) (Manifest.finite_toJson hm') h)

/-- One line that sets a name with characters to escape to a number inside a dictionary inside a list. -/
def Sample.holding (n : Number) : Manifest :=
  let line : Line :=
    { address := ⟨"1"⟩, method := .set_, sourceLine := 1, name := some [.name "say \"hi\"\n\x01"],
      args := some [.list [.dict [(.string "k" none, .number n)]]] }
  ⟨[line], "0", [], [("f", ⟨"1"⟩)], some ⟨"1"⟩, []⟩

/-- The two zeros are written apart, and apart from the whole number. -/
theorem render_isText_and_injective_zeros :
    Json.IsText (Sample.holding (.float (.zero true))).render ∧
      (Sample.holding (.float (.zero true))).render ≠ (Sample.holding (.float (.zero false))).render ∧
      (Sample.holding (.float (.zero true))).render ≠ (Sample.holding (.int 0)).render := by
  have hne : ∀ n n', Sample.holding n = Sample.holding n' → n = n' := by
    simp [Sample.holding]
  have htrue : (Sample.holding (.float (.zero true))).Finite := by decide
  have hfalse : (Sample.holding (.float (.zero false))).Finite := by decide
  have hint : (Sample.holding (.int 0)).Finite := by decide
  refine ⟨(render_isText_and_injective htrue hfalse).1, fun h => ?_, fun h => ?_⟩
  · exact absurd (hne _ _ ((render_isText_and_injective htrue hfalse).2.mp h)) (by decide)
  · exact absurd (hne _ _ ((render_isText_and_injective htrue hint).2.mp h)) (by decide)

end Flowline
