import Flowline.Proofs.Calls
import Flowline.Proofs.Requests

/-! Reading paths. A path is read into segments, or taken as a dotted text. Each child of a path that spells a name gives
    one segment and one piece of the text, so the text of a path of names is these names with dots between them, except
    that empty names before all others leave no trace in it. A path that is built from a text has the pieces of the text
    for its names, so both readings lead back to the text. -/

namespace Flowline

/-! ### Pieces of a text -/

theorem Text.intercalate_dotted (text : String) : ".".intercalate (dotted text) = text := by
  rw [← String.toList_inj, String.toList_intercalate, dotted, pieces_eq_splitOn]
  simp [Function.comp_def, List.intercalate_splitOn]

/-- The first piece is empty only if there is nothing before the first dot. -/
theorem Text.head?_dotted_ne {text : String} (h : text ≠ "") (hdot : text.toList.head? ≠ some '.') :
    (dotted text).head? ≠ some "" := by
  rw [dotted_head?, root, Ne, Option.some.injEq, ← String.toList_inj, String.toList_ofList]
  cases hcs : text.toList with
  | nil => exact absurd (String.toList_inj.mp hcs) h
  | cons c cs =>
    have hc : c ≠ '.' := by simpa [hcs] using hdot
    simp [hc]

/-! ### Names in a path -/

/-- The child of a path spells a name: it is a word, or a fragment that starts with a word or with a quoted text. -/
inductive Child.Spells : Child → String → Prop
  | word (word : Token) : Spells (.token word) word.value
  | fragment (tag : String) (word : Token) (rest : List Child) : Spells (.tree ⟨tag, .token word :: rest⟩) word.value
  | quoted {inner : Tree} {word : Token} (tag : String) (rest : List Child) (htag : inner.tag = "string")
      (hword : inner.tokenAt? 0 = some word) : Spells (.tree ⟨tag, .tree inner :: rest⟩) (Text.unquote word.value)

namespace Tree

theorem readSubscript_eq_name_iff {t : Tree} {name : String} :
    t.readSubscript = .ok (.name name) ↔
      t.tag = "string" ∧ ∃ word, t.tokenAt? 0 = some word ∧ name = Text.unquote word.value := by
  obtain ⟨tag, children⟩ := t
  unfold readSubscript
  split
  · rename_i htag
    simp only [except_bind_eq_ok, found_eq_ok, tokenAt_eq_ok, pure, Except.pure, Except.ok.injEq, Segment.name.injEq]
    constructor
    · rintro ⟨word, hword, rfl⟩
      exact ⟨htag, word, hword, rfl⟩
    · rintro ⟨-, word, hword, rfl⟩
      exact ⟨word, hword, rfl⟩
  · rename_i htag
    refine ⟨fun h => ?_, fun h => absurd h.1 htag⟩
    -- every other subscript is computed or refused
    split at h
    · obtain ⟨segments, -, hs⟩ := except_bind_eq_ok.mp h
      cases hs
    · split at h
      · split at h
        · obtain ⟨v, -, hv⟩ := except_bind_eq_ok.mp h
          cases hv
        · cases h
      · cases h

theorem segmentOf?_eq_name_iff {c : Child} {name : String} :
    segmentOf? c = some (.ok (.name name)) ↔ c.Spells name := by
  constructor
  · intro h
    match c with
    | .token word =>
      cases h
      exact .word word
    | .tree ⟨tag, []⟩ => cases h
    | .tree ⟨tag, .token word :: rest⟩ =>
      cases h
      exact .fragment tag word rest
    | .tree ⟨tag, .tree inner :: rest⟩ =>
      obtain ⟨htag, word, hword, rfl⟩ := readSubscript_eq_name_iff.mp (Option.some.inj h)
      exact .quoted tag rest htag hword
  · rintro (_ | _ | ⟨_, _, htag, hword⟩)
    · rfl
    · rfl
    · exact congrArg some (readSubscript_eq_name_iff.mpr ⟨htag, _, hword, rfl⟩)

theorem segmentsOf_eq_names_iff {cs : List Child} {names : List String} :
    segmentsOf cs = .ok (names.map .name) ↔ List.Forall₂ Child.Spells cs names := by
  induction cs generalizing names with
  | nil => simp [segmentsOf]
  | cons c cs ih =>
    obtain ⟨x, hx⟩ : ∃ x, segmentOf? c = some x := by cases c <;> exact ⟨_, rfl⟩
    rw [segmentsOf_walks.read c cs x hx]
    simp only [except_bind_eq_ok, pure, Except.pure, Except.ok.injEq]
    cases names with
    | nil => simp
    | cons name names =>
      rw [List.forall₂_cons, ← ih, ← segmentOf?_eq_name_iff, hx, Option.some.injEq]
      constructor
      · rintro ⟨segment, hsegment, segments, hsegments, heq⟩
        obtain ⟨rfl, rfl⟩ := List.cons.inj heq
        exact ⟨hsegment, hsegments⟩
      · rintro ⟨hname, hnames⟩
        exact ⟨_, hname, _, hnames, rfl⟩

/-! ### The text of a path of names -/

theorem addChild_of_spells {c : Child} {name : String} (h : c.Spells name) (text : String) :
    addChild text c = addName text name := by
  cases h with
  | word | fragment => rfl
  | quoted tag rest htag hword => rw [addChild, if_pos htag, quotedText, hword]

theorem addDotted_of_spells {cs : List Child} {names : List String} (h : List.Forall₂ Child.Spells cs names)
    (text : String) : addDotted text cs = names.foldl addName text := by
  induction h generalizing text with
  | nil => rfl
  | cons hc _ ih => rw [addDotted_cons, addChild_of_spells hc, ih, List.foldl_cons]

theorem foldl_addName {text : String} (h : text ≠ "") (names : List String) :
    names.foldl addName text = ".".intercalate (text :: names) := by
  induction names generalizing text with
  | nil => simp
  | cons name names ih =>
    have hlonger : text ++ "." ++ name ≠ "" := by simp
    rw [List.foldl_cons, addName, if_neg h, ih hlonger]
    rfl

/-- Names added to the empty text are joined with dots from the first on that is not empty. -/
theorem foldl_addName_empty (names : List String) :
    names.foldl addName "" = ".".intercalate (names.dropWhile (· == "")) := by
  induction names with
  | nil => rfl
  | cons name names ih =>
    rw [List.foldl_cons, addName, if_pos rfl]
    by_cases hname : name = ""
    · rw [hname, ih, List.dropWhile_cons_of_pos rfl]
    · rw [foldl_addName hname, List.dropWhile_cons_of_neg (by simpa using hname)]

theorem dottedText_of_names {t : Tree} {names : List String} (h : t.readSegments = .ok (names.map .name)) :
    t.dottedText = ".".intercalate (names.dropWhile (· == "")) := by
  obtain ⟨tag, children⟩ := t
  rw [dottedText, addDotted_of_spells (segmentsOf_eq_names_iff.mp h), foldl_addName_empty]

theorem dottedText_of_names_of_head? {t : Tree} {names : List String} (h : t.readSegments = .ok (names.map .name))
    (hfirst : names.head? ≠ some "") : t.dottedText = ".".intercalate names := by
  rw [dottedText_of_names h]
  cases names with
  | nil => rfl
  | cons name names => rw [List.dropWhile_cons_of_neg (by simpa using hfirst)]

end Tree

/-! ### Paths built from a text -/

theorem Shape.path_spells (text : String) (line : UInt32) :
    List.Forall₂ Child.Spells (Shape.path text line).children (Text.dotted text) := by
  rw [Shape.path]
  cases Text.dotted text with
  | nil => exact .nil
  | cons root names =>
    refine .cons (.word _) ?_
    rw [List.forall₂_map_left_iff, List.forall₂_same]
    exact fun name _ => .fragment _ (token "NAME" name line) []

theorem Shape.readSegments_path (text : String) (line : UInt32) :
    (Shape.path text line).readSegments = .ok ((Text.dotted text).map .name) :=
  Tree.segmentsOf_eq_names_iff.mpr (Shape.path_spells text line)

/-- A path that reads as names, the first of them not empty, has these names joined with dots for its text. A path that
    is built from a text that starts with a name reads as the pieces of the text between its dots, and has the text
    itself for its text. -/
theorem path_readings_agree :
    (∀ (t : Tree) (names : List String), t.readSegments = .ok (names.map .name) → names.head? ≠ some "" →
        t.dottedText = ".".intercalate names) ∧
      ∀ (text : String) (line : UInt32), text ≠ "" → text.toList.head? ≠ some '.' →
        (Shape.path text line).readSegments =
            .ok ((text.toList.splitOn '.').map fun piece => .name (String.ofList piece)) ∧
          (Shape.path text line).dottedText = text := by
  refine ⟨fun t names h hfirst => Tree.dottedText_of_names_of_head? h hfirst, fun text line hempty hdot => ⟨?_, ?_⟩⟩
  · rw [Shape.readSegments_path, Text.dotted, Text.pieces_eq_splitOn, List.map_map]
    rfl
  · have hfirst := Text.head?_dotted_ne hempty hdot
    rw [Tree.dottedText_of_names_of_head? (Shape.readSegments_path text line) hfirst, Text.intercalate_dotted]

/-- `client["inbox"]`, followed by a fragment with an empty name. -/
def Sample.subscripted : Tree :=
  ⟨"path", [Shape.leaf "NAME" "client" 1, .tree ⟨"path_fragment", [.tree (Shape.string "inbox" 1)]⟩,
    .tree ⟨"path_fragment", [Shape.leaf "NAME" "" 1]⟩]⟩

theorem path_readings_agree_subscripted :
    (Sample.subscripted.readSegments = .ok [.name "client", .name "inbox", .name ""] ∧
        Sample.subscripted.dottedText = "client.inbox.") ∧
      (Shape.path "mail..to" 1).readSegments = .ok [.name "mail", .name "", .name "to"] ∧
        (Shape.path "mail..to" 1).dottedText = "mail..to" := by
  have hread : Sample.subscripted.readSegments = .ok (["client", "inbox", ""].map .name) := rfl
  obtain ⟨hnames, hbuilt⟩ := path_readings_agree
  exact ⟨⟨hread, hnames _ _ hread (by decide)⟩, hbuilt "mail..to" 1 (by decide) (by decide)⟩

end Flowline
