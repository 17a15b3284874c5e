import Flowline.Proofs.Declarations

/-! The keys of the objects in the text of a manifest. Lines have their addresses as keys and functions their names,
    and both are distinct; the fields of lines and values have names of their own. The names that modules are
    imported under are not kept distinct, so they alone can make a key come twice. A reader that keeps the fields
    of an object in a map loses one of two fields with the same key. -/

namespace Flowline

/-! ### Objects -/

namespace Json

mutual

/-- The objects at and below a JSON value, each as its fields. -/
def objects : Json → List (List (String × Json))
  | .array items => objectsOfItems items
  | .object fields => fields :: objectsOfFields fields
  | _ => []

/-- The objects at and below the items of an array. -/
def objectsOfItems : List Json → List (List (String × Json))
  | [] => []
  | item :: items => item.objects ++ objectsOfItems items

/-- The objects at and below the values of fields. -/
def objectsOfFields : List (String × Json) → List (List (String × Json))
  | [] => []
  | (_, value) :: fields => value.objects ++ objectsOfFields fields

end

/-- No object in it has two fields with the same key. -/
def UniqueKeys (j : Json) : Prop :=
  ∀ fields ∈ j.objects, (fields.map (·.1)).Nodup

instance (j : Json) : Decidable j.UniqueKeys :=
  inferInstanceAs (Decidable (∀ fields ∈ j.objects, (fields.map (·.1)).Nodup))

theorem objectsOfItems_eq (items : List Json) : objectsOfItems items = items.flatMap objects := by
  induction items with
  | nil => rfl
  | cons item items ih => rw [objectsOfItems, ih, List.flatMap_cons]

theorem objectsOfFields_eq (fields : List (String × Json)) :
    objectsOfFields fields = fields.flatMap fun field => field.2.objects := by
  induction fields with
  | nil => rfl
  | cons field fields ih =>
    obtain ⟨key, value⟩ := field
    rw [objectsOfFields, ih, List.flatMap_cons]

@[simp] theorem uniqueKeys_null : null.UniqueKeys := by simp [UniqueKeys, objects]

@[simp] theorem uniqueKeys_bool (b : Bool) : (bool b).UniqueKeys := by simp [UniqueKeys, objects]

@[simp] theorem uniqueKeys_number (n : Number) : (number n).UniqueKeys := by simp [UniqueKeys, objects]

@[simp] theorem uniqueKeys_string (text : String) : (string text).UniqueKeys := by simp [UniqueKeys, objects]

@[simp] theorem uniqueKeys_array {items : List Json} : (array items).UniqueKeys ↔ ∀ item ∈ items, item.UniqueKeys := by
  simp only [UniqueKeys, objects, objectsOfItems_eq, List.mem_flatMap]
  exact ⟨fun h item hitem fields hfields => h fields ⟨item, hitem, hfields⟩,
    fun h fields ⟨item, hitem, hfields⟩ => h item hitem fields hfields⟩

@[simp] theorem uniqueKeys_object {fields : List (String × Json)} :
    (object fields).UniqueKeys ↔ (fields.map (·.1)).Nodup ∧ ∀ field ∈ fields, field.2.UniqueKeys := by
  simp only [UniqueKeys, objects, objectsOfFields_eq, List.forall_mem_cons, List.mem_flatMap]
  refine and_congr_right fun _ => ?_
  exact ⟨fun h field hfield fields hfields => h fields ⟨field, hfield, hfields⟩,
    fun h fields ⟨field, hfield, hfields⟩ => h field hfield fields hfields⟩

@[simp] theorem uniqueKeys_texts (items : List String) : (texts items).UniqueKeys := by
  simp [texts]

theorem uniqueKeys_orNull {α : Type} {encode : α → Json} (h : ∀ a, (encode a).UniqueKeys) (o : Option α) :
    (orNull encode o).UniqueKeys := by
  cases o with
  | none => exact uniqueKeys_null
  | some a => exact h a

/-- What a reader has that keeps the fields of an object in a map: of two fields with the same key, the later. -/
def readMap (fields : List (String × Json)) : String → Option Json :=
  fields.foldl (fun map field => Function.update map field.1 (some field.2)) fun _ => none

/-- The field of an object under a key, as such a reader has it. -/
def get? : Json → String → Option Json
  | object fields, key => readMap fields key
  | _, _ => none

theorem foldl_update_of_notMem {fields : List (String × Json)} {key : String} (h : key ∉ fields.map (·.1))
    (map : String → Option Json) :
    fields.foldl (fun (map : String → Option Json) field => Function.update map field.1 (some field.2)) map key =
      map key := by
  induction fields generalizing map with
  | nil => rfl
  | cons field fields ih =>
    obtain ⟨hne, hrest⟩ := not_or.mp (fun hmem => h (List.mem_cons.mpr hmem))
    rw [List.foldl_cons, ih hrest, Function.update_of_ne hne]

/-- With distinct keys, every field is read back. -/
theorem readMap_of_mem {fields : List (String × Json)} (h : (fields.map (·.1)).Nodup) {field : String × Json}
    (hmem : field ∈ fields) : readMap fields field.1 = some field.2 := by
  unfold readMap
  generalize (fun _ => none : String → Option Json) = map
  induction fields generalizing map with
  | nil => cases hmem
  | cons first fields ih =>
    obtain ⟨hfirst, hrest⟩ := List.nodup_cons.mp h
    rw [List.foldl_cons]
    rcases List.mem_cons.mp hmem with rfl | hmem
    · rw [foldl_update_of_notMem hfirst, Function.update_self]
    · exact ih hrest hmem _

end Json

/-! ### Values and lines -/

mutual

theorem Value.toJson_uniqueKeys : ∀ v : Value, v.toJson.UniqueKeys
  | .string _ none => by simp [Value.toJson, Json.tagged]
  | .string _ (some values) => by
    simpa [Value.toJson, Json.tagged] using Value.listToJson_uniqueKeys values
  | .number _ => by simp [Value.toJson]
  | .boolean _ => by simp [Value.toJson]
  | .file _ => by simp [Value.toJson, Json.tagged]
  | .list items => by simpa [Value.toJson, Json.tagged] using Value.listToJson_uniqueKeys items
  | .dict items => by simpa [Value.toJson, Json.tagged] using Value.pairsToJson_uniqueKeys items
  | .path segments => by simpa [Value.toJson, Json.tagged] using Segment.listToJson_uniqueKeys segments
  | .type _ => by simp [Value.toJson, Json.tagged]
  | .expression _ values => by simpa [Value.toJson, Json.tagged] using Value.listToJson_uniqueKeys values
  | .call _ command output arguments => by
    have hcommand := Json.uniqueKeys_orNull Json.uniqueKeys_string command
    have houtput := Json.uniqueKeys_orNull Json.uniqueKeys_texts output
    simpa [Value.toJson, Json.tagged, hcommand, houtput] using Argument.listToJson_uniqueKeys arguments
  | .argument argument => by
    rw [Value.toJson]
    exact Argument.toJson_uniqueKeys argument
  | .mutation _ arguments => by simpa [Value.toJson, Json.tagged] using Argument.listToJson_uniqueKeys arguments

theorem Value.listToJson_uniqueKeys : ∀ (values : List Value), ∀ j ∈ Value.listToJson values, j.UniqueKeys
  | [] => by simp [Value.listToJson]
  | value :: rest => by
    rw [Value.listToJson, List.forall_mem_cons]
    exact ⟨Value.toJson_uniqueKeys value, Value.listToJson_uniqueKeys rest⟩

theorem Value.pairsToJson_uniqueKeys :
    ∀ (pairs : List (Value × Value)), ∀ j ∈ Value.pairsToJson pairs, j.UniqueKeys
  | [] => by simp [Value.pairsToJson]
  | (key, value) :: rest => by
    rw [Value.pairsToJson, List.forall_mem_cons]
    refine ⟨?_, Value.pairsToJson_uniqueKeys rest⟩
    simpa using ⟨Value.toJson_uniqueKeys key, Value.toJson_uniqueKeys value⟩

theorem Segment.toJson_uniqueKeys : ∀ segment : Segment, segment.toJson.UniqueKeys
  | .name _ => by simp [Segment.toJson]
  | .computed value => by
    rw [Segment.toJson]
    exact Value.toJson_uniqueKeys value

theorem Segment.listToJson_uniqueKeys : ∀ (segments : List Segment), ∀ j ∈ Segment.listToJson segments, j.UniqueKeys
  | [] => by simp [Segment.listToJson]
  | segment :: rest => by
    rw [Segment.listToJson, List.forall_mem_cons]
    exact ⟨Segment.toJson_uniqueKeys segment, Segment.listToJson_uniqueKeys rest⟩

theorem Argument.toJson_uniqueKeys : ∀ argument : Argument, argument.toJson.UniqueKeys
  | ⟨name, value⟩ => by
    have hname := Json.uniqueKeys_orNull Json.uniqueKeys_string name
    simpa [Argument.toJson, Json.tagged, hname] using Value.toJson_uniqueKeys value

theorem Argument.listToJson_uniqueKeys :
    ∀ (arguments : List Argument), ∀ j ∈ Argument.listToJson arguments, j.UniqueKeys
  | [] => by simp [Argument.listToJson]
  | argument :: rest => by
    rw [Argument.listToJson, List.forall_mem_cons]
    exact ⟨Argument.toJson_uniqueKeys argument, Argument.listToJson_uniqueKeys rest⟩

end

namespace Json

variable {α : Type} {name : String} {encode : α → Json}

theorem keys_optional (name : String) (encode : α → Json) (o : Option α) :
    ((optional name encode o).map (·.1)).Sublist [name] := by
  cases o with
  | none => exact List.nil_sublist _
  | some a => exact List.Sublist.refl _

/-- An object with a field for each thing of a list. -/
theorem uniqueKeys_registry (xs : List α) (key : α → String) (h : ∀ a, (encode a).UniqueKeys) :
    (object (xs.map fun a => (key a, encode a))).UniqueKeys ↔ (xs.map key).Nodup := by
  have hfields : ∀ field ∈ xs.map fun a => (key a, encode a), field.2.UniqueKeys := by
    rw [List.forall_mem_map]
    exact fun a _ => h a
  rw [uniqueKeys_object, List.map_map, and_iff_left hfields]
  rfl

theorem get?_registry {xs : List α} {key : α → String} (h : (xs.map key).Nodup) {a : α} (ha : a ∈ xs) :
    (object (xs.map fun a => (key a, encode a))).get? (key a) = some (encode a) := by
  have hkeys : ((xs.map fun a => (key a, encode a)).map (·.1)).Nodup := by
    rwa [List.map_map]
  exact readMap_of_mem hkeys (List.mem_map_of_mem ha)

theorem uniqueKeys_optional (h : ∀ a, (encode a).UniqueKeys) (o : Option α) :
    ∀ field ∈ optional name encode o, field.2.UniqueKeys := by
  cases o with
  | none => simp [optional]
  | some a => simpa [optional] using h a

end Json

theorem Address.toJson_uniqueKeys (a : Address) : a.toJson.UniqueKeys :=
  Json.uniqueKeys_string a.text

/-- A line has at most the twelve fields, each under a name of its own. -/
theorem Line.toJson_uniqueKeys (l : Line) : l.toJson.UniqueKeys := by
  rw [Line.toJson, Json.uniqueKeys_object]
  constructor
  · have hnames : ["method", "ln", "name", "service", "command", "function", "args", "output", "enter", "exit", "parent",
        "next"].Nodup := by decide
    refine List.Nodup.sublist ?_ hnames
    simp only [List.map_append]
    exact ((((((((((List.Sublist.refl ["method", "ln"]).append (Json.keys_optional _ _ _)).append
      (Json.keys_optional _ _ _)).append (Json.keys_optional _ _ _)).append (Json.keys_optional _ _ _)).append
      (Json.keys_optional _ _ _)).append (Json.keys_optional _ _ _)).append (Json.keys_optional _ _ _)).append
      (Json.keys_optional _ _ _)).append (Json.keys_optional _ _ _)).append (Json.keys_optional _ _ _)
  · have hnames : ∀ segments, (Json.array (Segment.listToJson segments)).UniqueKeys := fun segments =>
      Json.uniqueKeys_array.mpr (Segment.listToJson_uniqueKeys segments)
    have hargs : ∀ values, (Json.array (Value.listToJson values)).UniqueKeys := fun values =>
      Json.uniqueKeys_array.mpr (Value.listToJson_uniqueKeys values)
    intro field hfield
    simp only [List.mem_append, or_assoc] at hfield
    rcases hfield with h | h | h | h | h | h | h | h | h | h | h
    · simp only [List.mem_cons, List.not_mem_nil, or_false] at h
      rcases h with rfl | rfl <;> exact Json.uniqueKeys_string _
    · exact Json.uniqueKeys_optional hnames _ _ h
    · exact Json.uniqueKeys_optional Json.uniqueKeys_string _ _ h
    · exact Json.uniqueKeys_optional Json.uniqueKeys_string _ _ h
    · exact Json.uniqueKeys_optional Json.uniqueKeys_string _ _ h
    · exact Json.uniqueKeys_optional hargs _ _ h
    · exact Json.uniqueKeys_optional Json.uniqueKeys_texts _ _ h
    · exact Json.uniqueKeys_optional Address.toJson_uniqueKeys _ _ h
    · exact Json.uniqueKeys_optional Address.toJson_uniqueKeys _ _ h
    · exact Json.uniqueKeys_optional Address.toJson_uniqueKeys _ _ h
    · exact Json.uniqueKeys_optional Address.toJson_uniqueKeys _ _ h

/-! ### Imports -/

namespace Tree

mutual

/-- The statements at and below a tree that lowering goes through, in order. -/
def reached : Tree → List Tree
  | ⟨tag, children⟩ =>
    ⟨tag, children⟩ ::
      match Statement.ofTag? tag with
      | some .container => reachedOfEach (fun _ => true) children
      | some .if_ =>
        reachedOfFirst "nested_block" children ++ reachedOfEach (· == "elseif_block") children ++
          reachedOfFirst "else_block" children
      | some .try_ =>
        reachedOfFirst "nested_block" children ++ reachedOfFirst "catch_block" children ++
          reachedOfFirst "finally_block" children
      | some .service | some .mutation | some .when | some .elseIf | some .else_ | some .foreach | some .while_
      | some .catch_ | some .finally_ | some .function => reachedOfFirst "nested_block" children
      | _ => []

/-- The statements that are gone through in the first of these children with a tag. -/
def reachedOfFirst (tag : String) : List Child → List Tree
  | [] => []
  | .token _ :: rest => reachedOfFirst tag rest
  | .tree t :: rest => if t.tag == tag then t.reached else reachedOfFirst tag rest

/-- The statements that are gone through in all of these children whose tag is wanted. -/
def reachedOfEach (keep : String → Bool) : List Child → List Tree
  | [] => []
  | .token _ :: rest => reachedOfEach keep rest
  | .tree t :: rest => (if keep t.tag then t.reached else []) ++ reachedOfEach keep rest

end

theorem reachedOfFirst_eq (tag : String) (cs : List Child) :
    reachedOfFirst tag cs = (((cs.filterMap Child.tree?).find? (·.tag == tag)).map reached).getD [] := by
  induction cs with
  | nil => rfl
  | cons c cs ih =>
    cases c with
    | token => exact ih
    | tree t => by_cases ht : (t.tag == tag) = true <;> simp [reachedOfFirst, Child.tree?, ht, ih]

theorem reachedOfEach_eq (keep : String → Bool) (cs : List Child) :
    reachedOfEach keep cs = ((cs.filterMap Child.tree?).filter (keep ·.tag)).flatMap reached := by
  induction cs with
  | nil => rfl
  | cons c cs ih =>
    cases c with
    | token => exact ih
    | tree t => by_cases ht : keep t.tag = true <;> simp [reachedOfEach, Child.tree?, ht, ih]

/-- The name and the path of an import. -/
def importOf? (t : Tree) : Option (String × String) :=
  if t.tag = "imports" then
    match t.child "string" >>= (·.tokenAt 0), t.nameToken with
    | .ok path, .ok name => some (name.value, Text.unquote path.value)
    | _, _ => none
  else none

/-- The modules that a program imports, each with the name it is imported under, in order. -/
def imported (t : Tree) : List (String × String) :=
  t.reached.filterMap importOf?

theorem importOf?_of_statement {tag : String} {kind : Statement} (h : Statement.ofTag? tag = some kind)
    (hk : kind ≠ .import_) (children : List Child) : importOf? ⟨tag, children⟩ = none := by
  refine if_neg ?_
  rintro rfl
  exact hk (Option.some.inj h).symm

end Tree

namespace LowerM

variable {α β : Type} {m : LowerM Store α} {f : α → LowerM Store β} {xs ys : List (String × String)}

/-- If the action ends with an answer, these modules were imported. -/
def Imports (m : LowerM Store α) (xs : List (String × String)) : Prop :=
  ∀ s, m.Ends s (fun _ u => u.modules = s.modules ++ xs) fun _ _ => True

theorem Imports.bind (hm : m.Imports xs) (hf : ∀ a, (f a).Imports ys) : (m >>= f).Imports (xs ++ ys) := by
  intro s
  refine Ends.bind ((hm s).mono (fun a t ht => (hf a t).mono (fun _ u hu => ?_) fun _ _ h => h) fun _ _ h => h)
  rw [hu, ht, List.append_assoc]

/-- An action that imports nothing comes first. -/
theorem Imports.after (hm : m.Imports []) (hf : ∀ a, (f a).Imports ys) : (m >>= f).Imports ys :=
  hm.bind hf

/-- An action that imports nothing comes last. -/
theorem Imports.before (hm : m.Imports xs) (hf : ∀ a, (f a).Imports []) : (m >>= f).Imports xs :=
  List.append_nil xs ▸ hm.bind hf

theorem imports_pure (a : α) : (pure a : LowerM Store α).Imports [] := fun s =>
  ends_pure (List.append_nil s.modules).symm

theorem imports_get : (get : LowerM Store Store).Imports [] := fun s => ends_get (List.append_nil s.modules).symm

theorem imports_modify {g : Store → Store} (hg : ∀ s, (g s).modules = s.modules) :
    (modify g : LowerM Store Unit).Imports [] :=
  fun s => ends_modify ((hg s).trans (List.append_nil _).symm)

theorem imports_modifyGet {g : Store → α × Store} (hg : ∀ s, (g s).2.modules = s.modules) :
    (modifyGet g : LowerM Store α).Imports [] :=
  fun s => ends_modifyGet ((hg s).trans (List.append_nil _).symm)

theorem imports_append (method : Method) (ln : UInt32) (d : Draft) : (append method ln d).Imports [] :=
  imports_modifyGet fun _ => rfl

theorem imports_ensure (x : Except Diagnostic α) : (liftM x : LowerM Store α).Imports [] := fun s =>
  ends_liftM_diagnostic (fun _ _ => (List.append_nil s.modules).symm) fun _ _ => trivial

theorem imports_read (x : Except Malformed α) : (liftM x : LowerM Store α).Imports [] := fun s =>
  ends_liftM_malformed (fun _ _ => (List.append_nil s.modules).symm) fun _ => trivial

theorem imports_lookUp (x : Except Missing α) : (liftM x : LowerM Store α).Imports [] := fun s =>
  ends_liftM_missing (fun _ _ => (List.append_nil s.modules).symm) fun _ => trivial

end LowerM

namespace Store

variable (s : Store)

theorem emit_modules (m : Method) (ln : UInt32) (d : Draft) : (s.emit m ln d).modules = s.modules := by
  show (s.registerFor m d.service).modules = s.modules
  unfold registerFor
  split
  · rfl
  · split
    · rfl
    · unfold registerService
      split <;> rfl

theorem linkExit_modules (a : Address) : (s.linkExit a).modules = s.modules := by
  unfold linkExit
  split <;> rfl

theorem addArgsToLast_modules (m : Method) (more : List Value) : (s.addArgsToLast m more).2.modules = s.modules := by
  unfold addArgsToLast
  split
  · rfl
  · unfold addArgs
    split <;> [rfl; (split <;> rfl)]

theorem copyLine_modules (a : Address) (ln : UInt32) (p : Option Address) :
    (s.copyLine a ln p).2.modules = s.modules := by
  unfold copyLine
  split <;> rfl

theorem declareFunction_modules (name : String) (a : Address) : (s.declareFunction name a).2.modules = s.modules := by
  unfold declareFunction
  split <;> rfl

end Store

namespace LowerM

variable {α : Type} {p : Option Address}

theorem imports_of_emitted {m : LowerM Store Address} {kind : Method → Draft → Prop}
    (h : ∀ s, m.Ends s (Emitted p s kind) (Refused s)) : m.Imports [] := by
  intro s
  refine (h s).mono ?_ fun _ _ _ => trivial
  rintro _ _ ⟨m, ln, d, -, -, -, rfl⟩
  rw [s.emit_modules, List.append_nil]

theorem imports_headerOperand (t : Tree) : (headerOperand t p).Imports [] := by
  intro s
  refine headerOperand_ends.mono ?_ fun _ _ _ => trivial
  rintro _ _ ⟨ho, -⟩
  rw [List.append_nil]
  cases ho with
  | plain => rfl
  | @computed m ln d => exact s.emit_modules m ln d

theorem imports_targetsValue (service : Tree) : (targetsValue service).Imports [] := fun s =>
  targetsValue_ends.mono (fun _ _ ht => ht ▸ (List.append_nil s.modules).symm) fun _ _ _ => trivial

theorem imports_invoke {place : Tree} {run : Store → Except Diagnostic (Address × Store)} {k : Store → Method}
    {ln : UInt32} {r : Request} (hrun : ∀ s, run s = s.invoke (k s) ln r p)
    (hm : ∀ s, k s = .when ∨ k s = if s.isHandle r.name then .call else .execute) :
    (invoke place run).Imports [] :=
  fun s => (invoke_emits (fun _ _ => True) (hrun s) (hm s) fun _ _ => trivial).mono
    (by rintro _ _ ⟨m, ln, d, -, -, -, rfl⟩; rw [s.emit_modules, List.append_nil]) fun _ _ _ => trivial

/-- An import adds its name and its path. -/
theorem imports_lowerImport (t : Tree) (ht : t.tag = "imports") : (lowerImport t).Imports t.importOf?.toList := by
  intro s
  unfold lowerImport
  refine Ends.bind (ends_liftM_missing (fun string hstring => ?_) fun _ => trivial)
  refine Ends.bind (ends_liftM_missing (fun path hpath => ?_) fun _ => trivial)
  refine Ends.bind (ends_liftM_malformed (fun name hname => ?_) fun _ => trivial)
  refine ends_modify ?_
  have hread : (t.child "string" >>= (·.tokenAt 0)) = .ok path := except_bind_eq_ok.mpr ⟨string, hstring, hpath⟩
  rw [Tree.importOf?, if_pos ht, hread, hname]
  rfl

theorem imports_continueLast (place : Tree) (method : Method) (code : Code) (more : List Value) :
    (continueLast place method code more).Imports [] :=
  (imports_modifyGet fun s => s.addArgsToLast_modules method more).after fun _ => imports_ensure _

theorem imports_lowerAssignment (t : Tree) : (lowerAssignment t p).Imports [] := by
  refine (imports_lookUp _).after fun target => (imports_ensure _).after fun _ => (imports_read _).after fun path => ?_
  refine (imports_lookUp _).after fun fragment => (imports_read _).after fun operand => ?_
  exact (imports_of_emitted fun _ => operandLine_emits).after fun _ => imports_modify fun _ => rfl

theorem imports_lowerExpression (t : Tree) : (lowerExpression t p).Imports [] := by
  refine (imports_lookUp _).after fun expression => (imports_read _).after fun args => ?_
  exact (imports_lookUp _).after fun ln => (imports_append _ _ _).after fun _ => imports_pure _

theorem imports_lowerReturn (t : Tree) : (lowerReturn t p).Imports [] := by
  unfold lowerReturn
  refine (imports_ensure _).after fun _ => ?_
  split
  · refine (imports_headerOperand _).after fun operand => (imports_lookUp _).after fun ln => ?_
    exact (imports_append _ _ _).after fun _ => imports_pure _
  · exact (imports_lookUp _).after fun ln => (imports_append _ _ _).after fun _ => imports_pure _

theorem imports_lowerBreak (t : Tree) : (lowerBreak t p).Imports [] :=
  (imports_ensure _).after fun _ => (imports_lookUp _).after fun _ => (imports_append _ _ _).after fun _ => imports_pure _

theorem imports_lowerThrow (t : Tree) : (lowerThrow t p).Imports [] :=
  (imports_read _).after fun _ => (imports_lookUp _).after fun _ => (imports_append _ _ _).after fun _ => imports_pure _

end LowerM

/-- The imports in the first part with a tag. -/
def Part.importedOfFirst (parts : List (Part Store)) (tag : String) : List (String × String) :=
  ((parts.find? (·.tree.tag == tag)).map (·.tree.imported)).getD []

section Parts

open LowerM

variable {parts : List (Part Store)} (hparts : ∀ part ∈ parts, ∀ p, (part.lower p).Imports part.tree.imported)

include hparts

theorem imports_lowerAll (p : Option Address) :
    (Part.lowerAll parts p).Imports (parts.flatMap (·.tree.imported)) := by
  induction parts with
  | nil => exact imports_pure ()
  | cons part rest ih =>
    have hrest := ih fun part' h' => hparts part' (List.mem_cons_of_mem _ h')
    exact (hparts part List.mem_cons_self p).bind fun _ => hrest

theorem imports_lowerTagged (tag : String) (p : Option Address) :
    (Part.lowerTagged parts tag p).Imports ((parts.filter (·.tree.tag == tag)).flatMap (·.tree.imported)) :=
  imports_lowerAll (fun part h => hparts part (List.mem_filter.mp h).1) p

theorem imports_lowerFirst (tag : String) (p : Option Address) :
    (Part.lowerFirst parts tag p).Imports (Part.importedOfFirst parts tag) := by
  unfold Part.lowerFirst Part.importedOfFirst
  cases hfind : parts.find? (·.tree.tag == tag) with
  | none => exact imports_pure ()
  | some part => exact hparts part (List.mem_of_find?_eq_some hfind) p

theorem imports_lowerBody (header : Address) (output : Option (List String)) :
    (Part.lowerBody parts header output).Imports (Part.importedOfFirst parts "nested_block") := by
  unfold Part.lowerBody Part.importedOfFirst
  cases hfind : parts.find? (·.tree.tag == "nested_block") with
  | none => exact imports_pure ()
  | some body =>
    have hbody := hparts body (List.mem_of_find?_eq_some hfind) (some header)
    refine Imports.after (imports_modify fun _ => rfl) fun _ => hbody.before fun _ => ?_
    exact imports_modify fun _ => rfl

variable (t : Tree) (p : Option Address)

theorem imports_lowerService :
    (lowerService t parts p).Imports (Part.importedOfFirst parts "nested_block") := by
  unfold lowerService
  have hrest : ∀ service : Tree, Imports (do
      if ← targetsValue service then do
        let header ← valueCommand service .expression p
        let output := ((← get).line? header).bind (·.output)
        Part.lowerBody parts header output
      else do
        let call ← service.readRequest
        let line ← service.line
        let header ← invoke service (·.execute line call p)
        Part.lowerBody parts header call.output) (Part.importedOfFirst parts "nested_block") := by
    intro service
    refine (imports_targetsValue _).after fun targets => ?_
    split
    · refine (imports_of_emitted fun _ => valueCommand_emits (Or.inr rfl)).after fun header => ?_
      exact imports_get.after fun _ => imports_lowerBody hparts _ _
    · refine (imports_read _).after fun call => (imports_lookUp _).after fun line => ?_
      exact (imports_invoke (fun _ => rfl) fun _ => Or.inr rfl).after fun _ => imports_lowerBody hparts _ _
  split
  · exact hrest t
  · exact (imports_lookUp _).after hrest

theorem imports_lowerMutation :
    (lowerMutation t parts p).Imports (Part.importedOfFirst parts "nested_block") := by
  unfold lowerMutation
  have hrest : ∀ mutated : Tree, Imports (do
      let header ← mutationLine mutated p
      Part.lowerBody parts header none) (Part.importedOfFirst parts "nested_block") := fun mutated =>
    (imports_of_emitted fun _ => mutationLine_emits).after fun _ => imports_lowerBody hparts _ _
  split
  · exact hrest t
  · exact (imports_lookUp _).after hrest

theorem imports_lowerWhen :
    (lowerWhen t parts p).Imports (Part.importedOfFirst parts "nested_block") := by
  unfold lowerWhen
  refine (imports_lookUp _).after fun ln => ?_
  split
  · refine (imports_read _).after fun call => ?_
    refine (imports_invoke (k := fun _ => .when) (fun _ => rfl) fun _ => Or.inl rfl).after fun _ => ?_
    exact imports_lowerBody hparts _ _
  · refine (imports_lookUp _).after fun path => (imports_read _).after fun handle => ?_
    exact (imports_append _ _ _).after fun _ => imports_lowerBody hparts _ _

theorem imports_lowerIf :
    (lowerIf t parts p).Imports (Part.importedOfFirst parts "nested_block" ++
      (parts.filter (·.tree.tag == "elseif_block")).flatMap (·.tree.imported) ++
      Part.importedOfFirst parts "else_block") := by
  refine (imports_lookUp _).after fun statement => (imports_headerOperand _).after fun operand => ?_
  refine (imports_lookUp _).after fun ln => (imports_append _ _ _).after fun header => ?_
  rw [List.append_assoc]
  refine (imports_lowerBody hparts _ _).bind fun _ => (imports_lowerTagged hparts _ p).bind fun _ => ?_
  exact imports_lowerFirst hparts _ p

theorem imports_lowerElseIf :
    (lowerElseIf t parts p).Imports (Part.importedOfFirst parts "nested_block") := by
  refine (imports_lookUp _).after fun statement => (imports_headerOperand _).after fun operand => ?_
  refine (imports_lookUp _).after fun ln => (imports_append _ _ _).after fun header => ?_
  exact Imports.after (imports_modify fun s => s.linkExit_modules _) fun _ => imports_lowerBody hparts _ _

theorem imports_lowerLastBranch (method : Method) :
    (lowerLastBranch method t parts p).Imports (Part.importedOfFirst parts "nested_block") := by
  refine (imports_lookUp _).after fun ln => (imports_append _ _ _).after fun header => ?_
  exact Imports.after (imports_modify fun s => s.linkExit_modules _) fun _ => imports_lowerBody hparts _ _

theorem imports_lowerForeach :
    (lowerForeach t parts p).Imports (Part.importedOfFirst parts "nested_block") := by
  unfold lowerForeach
  refine (imports_lookUp _).after fun statement => ?_
  split
  · refine Imports.after (imports_pure _) fun subject => (imports_read _).after fun value => ?_
    exact (imports_lookUp _).after fun ln => (imports_append _ _ _).after fun _ => imports_lowerBody hparts _ _
  · exact fun _ => Ends.bind (ends_throw trivial)

theorem imports_lowerWhile :
    (lowerWhile t parts p).Imports (Part.importedOfFirst parts "nested_block") := by
  refine (imports_lookUp _).after fun statement => (imports_lookUp _).after fun ln => ?_
  refine (imports_headerOperand _).after fun operand => (imports_append _ _ _).after fun header => ?_
  refine (imports_lowerBody hparts _ _).before fun _ => ?_
  cases operand.line with
  | none => exact imports_pure ()
  | some computed => exact Imports.after (imports_modifyGet fun s => s.copyLine_modules _ _ _) fun _ => imports_pure ()

theorem imports_lowerTry :
    (lowerTry t parts p).Imports (Part.importedOfFirst parts "nested_block" ++
      Part.importedOfFirst parts "catch_block" ++ Part.importedOfFirst parts "finally_block") := by
  refine (imports_lookUp _).after fun ln => (imports_append _ _ _).after fun header => ?_
  rw [List.append_assoc]
  refine (imports_lowerBody hparts _ _).bind fun _ => (imports_lowerFirst hparts _ p).bind fun _ => ?_
  exact imports_lowerFirst hparts _ p

theorem imports_lowerCatch :
    (lowerCatch t parts p).Imports (Part.importedOfFirst parts "nested_block") := by
  refine (imports_lookUp _).after fun statement => (imports_lookUp _).after fun ln => ?_
  refine (imports_append _ _ _).after fun header => ?_
  exact Imports.after (imports_modify fun s => s.linkExit_modules _) fun _ => imports_lowerBody hparts _ _

theorem imports_lowerFunction :
    (lowerFunction t parts p).Imports (Part.importedOfFirst parts "nested_block") := by
  unfold lowerFunction
  refine (imports_lookUp _).after fun statement => (imports_read _).after fun name => ?_
  refine (imports_read _).after fun parameters => (imports_lookUp _).after fun returns => ?_
  refine (imports_lookUp _).after fun ln => (imports_append _ _ _).after fun header => ?_
  have hdeclare : (modifyGet (Store.declareFunction · name.value header) : LowerM Store (Option Address)).Imports [] :=
    imports_modifyGet fun s => s.declareFunction_modules _ _
  cases returns with
  | none =>
    refine hdeclare.after fun previous => ?_
    cases previous with
    | none => exact imports_lowerBody hparts _ _
    | some previous => exact fun _ => Ends.bind (ends_throw trivial)
  | some names =>
    refine Imports.after (imports_modify fun _ => rfl) fun _ => hdeclare.after fun previous => ?_
    cases previous with
    | none => exact imports_lowerBody hparts _ _
    | some previous => exact fun _ => Ends.bind (ends_throw trivial)

end Parts

/-! ### Whole programs -/

section Programs

open LowerM

theorem Part.importedOfFirst_subtrees (t : Tree) (tag : String) :
    Part.importedOfFirst (t.subtrees.map fun c => ⟨c, c.lower⟩) tag =
      (Tree.reachedOfFirst tag t.children).filterMap Tree.importOf? := by
  rw [Tree.reachedOfFirst_eq, Part.importedOfFirst, List.find?_map, Option.map_map]
  show (Option.map _ (List.find? (·.tag == tag) t.subtrees)).getD [] =
    ((Option.map _ (List.find? (·.tag == tag) t.subtrees)).getD []).filterMap _
  cases t.subtrees.find? (·.tag == tag) <;> rfl

theorem Part.importedOfEach_subtrees (t : Tree) (keep : String → Bool) :
    ((t.subtrees.map fun c => (⟨c, c.lower⟩ : Part Store)).filter (keep ·.tree.tag)).flatMap (·.tree.imported) =
      (Tree.reachedOfEach keep t.children).filterMap Tree.importOf? := by
  rw [Tree.reachedOfEach_eq, List.filter_map, List.flatMap_map, List.filterMap_flatMap]
  rfl

theorem statement_imports (t : Tree) (hparts : ∀ c ∈ t.subtrees, ∀ p, (c.lower p).Imports c.imported)
    (p : Option Address) : (statement t (t.subtrees.map fun c => ⟨c, c.lower⟩) p).Imports t.imported := by
  have hparts : ∀ part ∈ t.subtrees.map (fun c => (⟨c, c.lower⟩ : Part Store)), ∀ p,
      (part.lower p).Imports part.tree.imported := by
    intro part hpart
    obtain ⟨c, hc, rfl⟩ := List.mem_map.mp hpart
    exact hparts c hc
  have hfirst := Part.importedOfFirst_subtrees t
  have heach := Part.importedOfEach_subtrees t
  obtain ⟨tag, children⟩ := t
  unfold statement Tree.imported
  rw [Tree.reached]
  cases hkind : Statement.ofTag? tag with
  | none => exact fun _ => ends_throw trivial
  | some kind =>
    by_cases himport : kind = .import_
    · subst himport
      have htag : tag = "imports" := by
        unfold Statement.ofTag? at hkind
        split at hkind <;> first | rfl | cases hkind
      have hlower := imports_lowerImport ⟨tag, children⟩ htag
      rw [List.filterMap_cons]
      cases hof : Tree.importOf? ⟨tag, children⟩ with
      | none => exact hof ▸ hlower
      | some entry => exact hof ▸ hlower
    rw [List.filterMap_cons_none (Tree.importOf?_of_statement hkind himport children)]
    cases kind with
    | import_ => exact absurd rfl himport
    | container =>
      have hall := imports_lowerAll hparts p
      have hrow := heach fun _ => true
      rw [List.filter_true] at hrow
      exact hrow ▸ hall
    | if_ =>
      have hif := imports_lowerIf hparts ⟨tag, children⟩ p
      rw [heach (· == "elseif_block"), hfirst, hfirst] at hif
      rw [List.filterMap_append, List.filterMap_append]
      exact hif
    | try_ =>
      have htry := imports_lowerTry hparts ⟨tag, children⟩ p
      rw [hfirst, hfirst, hfirst] at htry
      rw [List.filterMap_append, List.filterMap_append]
      exact htry
    | service => exact hfirst _ ▸ imports_lowerService hparts _ p
    | mutation => exact hfirst _ ▸ imports_lowerMutation hparts _ p
    | when => exact hfirst _ ▸ imports_lowerWhen hparts _ p
    | elseIf => exact hfirst _ ▸ imports_lowerElseIf hparts _ p
    | else_ => exact hfirst _ ▸ imports_lowerLastBranch hparts _ p .else_
    | foreach => exact hfirst _ ▸ imports_lowerForeach hparts _ p
    | while_ => exact hfirst _ ▸ imports_lowerWhile hparts _ p
    | catch_ => exact hfirst _ ▸ imports_lowerCatch hparts _ p
    | finally_ => exact hfirst _ ▸ imports_lowerLastBranch hparts _ p .finally_
    | function => exact hfirst _ ▸ imports_lowerFunction hparts _ p
    | assignment => exact imports_lowerAssignment _
    | absoluteExpression => exact imports_lowerExpression _
    | chain => exact (imports_read _).after fun _ => imports_continueLast _ _ _ _
    | arguments => exact (imports_read _).after fun _ => imports_continueLast _ _ _ _
    | call => exact (imports_of_emitted fun _ => callLine_emits).after fun _ => imports_pure ()
    | return_ => exact imports_lowerReturn _
    | break_ => exact imports_lowerBreak _
    | throw => exact imports_lowerThrow _

theorem Tree.lower_imports (t : Tree) : ∀ p, (t.lower p).Imports t.imported := by
  induction t using subtreeInduction with
  | step t ih =>
    rw [Tree.lower_eq]
    exact statement_imports t ih

/-- The modules of a program are those of its imports, in order, whatever their names. -/
theorem compile_modules {t : Tree} {m : Manifest} (h : compile t = .ok m) : m.modules = t.imported := by
  unfold compile at h
  split at h
  · rename_i s hs
    obtain rfl := Except.ok.inj h
    exact (t.lower_imports none {}).of_ok hs
  · cases h

end Programs

namespace Manifest

variable (m : Manifest)

theorem nodup_addressTexts : (m.lines.map fun l => l.address.text).Nodup ↔ (m.lines.map (·.address)).Nodup := by
  have htext : Function.Injective Address.text := fun a b h => by
    obtain ⟨text⟩ := a
    obtain rfl : text = b.text := h
    rfl
  rw [← List.nodup_map_iff htext, List.map_map]
  rfl

/-- Keys can come twice only among lines, functions and modules. -/
theorem toJson_uniqueKeys_iff : m.toJson.UniqueKeys ↔
    (m.lines.map (·.address)).Nodup ∧ (m.functions.map (·.1)).Nodup ∧ (m.modules.map (·.1)).Nodup := by
  have hentrypoint := Json.uniqueKeys_orNull Address.toJson_uniqueKeys m.entrypoint
  have hlines := Json.uniqueKeys_registry m.lines (·.address.text) Line.toJson_uniqueKeys
  have hfunctions := Json.uniqueKeys_registry m.functions (·.1) fun f => Address.toJson_uniqueKeys f.2
  have hmodules := Json.uniqueKeys_registry m.modules (·.1) fun entry => Json.uniqueKeys_string entry.2
  rw [toJson, Json.uniqueKeys_object, and_iff_right (by simp)]
  simp only [List.forall_mem_cons, hlines, hfunctions, hmodules, nodup_addressTexts, hentrypoint, Json.uniqueKeys_string,
    Json.uniqueKeys_texts, List.not_mem_nil, false_imp_iff, implies_true, and_true, true_and]

end Manifest

/-- The lines and the functions of a program have keys of their own. -/
theorem compile_keys {t : Tree} {m : Manifest} (h : compile t = .ok m) :
    (m.lines.map (·.address)).Nodup ∧ (m.functions.map (·.1)).Nodup := by
  obtain ⟨s, hs, rfl⟩ := compile_done h
  have hlinked := hs.linked Store.linked_empty
  have hcatalogued := hs.keeps Store.ready_empty Store.Catalogued.changes .empty
  exact ⟨hlinked.keyed.nodup, hcatalogued.distinct⟩

/-- A key comes twice in the text of a program exactly if two modules are imported under the same name. A reader
    that keeps fields in a map recovers every line and every function all the same, and every module if the names
    are distinct. -/
theorem keys_unique_iff_imports_distinct {t : Tree} {m : Manifest} (h : compile t = .ok m) :
    (m.toJson.UniqueKeys ↔ (t.imported.map (·.1)).Nodup) ∧
    ({ m with modules := [] } : Manifest).toJson.UniqueKeys ∧
    (∀ l ∈ m.lines, (m.toJson.get? "tree").bind (·.get? l.address.text) = some l.toJson) ∧
    (∀ f ∈ m.functions, (m.toJson.get? "functions").bind (·.get? f.1) = some f.2.toJson) ∧
    ((t.imported.map (·.1)).Nodup →
      ∀ entry ∈ t.imported, (m.toJson.get? "modules").bind (·.get? entry.1) = some (.string entry.2)) := by
  obtain ⟨hlines, hfunctions⟩ := compile_keys h
  have hmodules := compile_modules h
  refine ⟨?_, ?_, fun l hl => ?_, fun f hf => ?_, fun hdistinct entry hentry => ?_⟩
  · rw [m.toJson_uniqueKeys_iff, hmodules]
    simp only [hlines, hfunctions, true_and]
  · rw [Manifest.toJson_uniqueKeys_iff]
    exact ⟨hlines, hfunctions, .nil⟩
  · exact Json.get?_registry (m.nodup_addressTexts.mpr hlines) hl
  · exact Json.get?_registry hfunctions hf
  · exact Json.get?_registry (hmodules ▸ hdistinct) (hmodules ▸ hentry)

/-- Two imports under the names given, and a function. -/
def Sample.importing (first second : String) : Tree :=
  Shape.script [
    Shape.importStatement "a" first 1,
    Shape.importStatement "b" second 2,
    Shape.functionBlock "f" [] [] [Shape.returnStatement none 4] 3]

theorem keys_unique_iff_imports_distinct_importing :
    ∃ m, compile (Sample.importing "m" "n") = .ok m ∧ m.toJson.UniqueKeys ∧ m.modules = [("m", "a"), ("n", "b")] ∧
      ∀ entry ∈ m.modules, (m.toJson.get? "modules").bind (·.get? entry.1) = some (.string entry.2) := by
  obtain ⟨m, hm⟩ := ok_of_isOk (x := compile (Sample.importing "m" "n")) (by decide +kernel)
  have himported : (Sample.importing "m" "n").imported = [("m", "a"), ("n", "b")] := by decide +kernel
  obtain ⟨hunique, -, -, -, hread⟩ := keys_unique_iff_imports_distinct hm
  rw [himported] at hunique hread
  have hmodules : m.modules = [("m", "a"), ("n", "b")] := (compile_modules hm).trans himported
  exact ⟨m, hm, hunique.mpr (by decide), hmodules, hmodules ▸ hread (by decide)⟩

/-- Two modules are imported under one name. The name is a key twice, and the first module is not recovered. -/
theorem key_twice_importing :
    ∃ m, compile (Sample.importing "m" "m") = .ok m ∧ ¬m.toJson.UniqueKeys ∧ ("m", "a") ∈ m.modules ∧
      (m.toJson.get? "modules").bind (·.get? "m") = some (.string "b") := by
  obtain ⟨m, hm⟩ := ok_of_isOk (x := compile (Sample.importing "m" "m")) (by decide +kernel)
  have himported : (Sample.importing "m" "m").imported = [("m", "a"), ("m", "b")] := by decide +kernel
  have hmodules : m.modules = [("m", "a"), ("m", "b")] := (compile_modules hm).trans himported
  refine ⟨m, hm, ?_, by simp [hmodules], ?_⟩
  · rw [m.toJson_uniqueKeys_iff, hmodules]
    rintro ⟨-, -, hdistinct⟩
    exact absurd hdistinct (by decide)
  · show (Json.object (m.modules.map _)).get? "m" = _
    rw [hmodules]
    rfl

end Flowline
