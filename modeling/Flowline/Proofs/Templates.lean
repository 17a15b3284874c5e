import Flowline.Proofs.Calls
import Flowline.Proofs.Renumbering

/-! Texts with placeholders. A text is cut at its placeholders so that nothing is lost, and the text that is kept has a
    hole for each of them. Filling the holes from left to right gives the text back, up to the white space in the
    braces and around dots. A blank placeholder leaves a hole that no value fills, so holes and values are in step
    when no placeholder is blank. -/

namespace Flowline

namespace Text

/-! ### White space -/

/-- The characters that are not white space. -/
def solid (cs : List Char) : List Char :=
  cs.filter (!isBlank ·)

theorem solid_append (cs cs' : List Char) : solid (cs ++ cs') = solid cs ++ solid cs' :=
  List.filter_append ..

theorem solid_eq_nil_iff {cs : List Char} : solid cs = [] ↔ cs.all isBlank = true := by
  simp [solid]

/-- Trimming takes white space from both ends and nothing else. -/
theorem exists_eq_trim (cs : List Char) :
    ∃ front back : List Char, front.all isBlank = true ∧ back.all isBlank = true ∧ cs = front ++ (trim cs ++ back) := by
  refine ⟨cs.takeWhile isBlank, ((cs.dropWhile isBlank).reverse.takeWhile isBlank).reverse, ?_, ?_, ?_⟩
  · exact List.all_takeWhile
  · rw [List.all_reverse]
    exact List.all_takeWhile
  · rw [trim, ← List.reverse_append, List.takeWhile_append_dropWhile, List.reverse_reverse,
      List.takeWhile_append_dropWhile]

theorem trim_cons_of_isBlank {c : Char} (hc : isBlank c = true) (cs : List Char) : trim (c :: cs) = trim cs := by
  rw [trim, List.dropWhile_cons_of_pos hc, trim]

theorem trim_append_of_all_isBlank {back : List Char} (h : back.all isBlank = true) (cs : List Char) :
    trim (cs ++ back) = trim cs := by
  have hback : back.dropWhile isBlank = [] := List.dropWhile_eq_nil_iff.mpr (List.all_eq_true.mp h)
  have hreverse : back.reverse.dropWhile isBlank = [] :=
    List.dropWhile_eq_nil_iff.mpr fun c hc => List.all_eq_true.mp h c (List.mem_reverse.mp hc)
  by_cases hcs : cs.dropWhile isBlank = []
  · simp [trim, List.dropWhile_append, hcs, hback]
  · simp [trim, List.dropWhile_append, hcs, hreverse]

theorem solid_trim (cs : List Char) : solid (trim cs) = solid cs := by
  obtain ⟨front, back, hfront, hback, hcs⟩ := exists_eq_trim cs
  conv_rhs => rw [hcs, solid_append, solid_append, solid_eq_nil_iff.mpr hfront, solid_eq_nil_iff.mpr hback]
  simp

/-! ### Dotted names -/

theorem pieces_cons_of_ne {sep c : Char} (hc : c ≠ sep) (cs : List Char) :
    ∃ first rest, pieces sep cs = first :: rest ∧ pieces sep (c :: cs) = (c :: first) :: rest := by
  obtain ⟨first, rest, hp⟩ : ∃ first rest, pieces sep cs = first :: rest := by
    refine List.exists_cons_of_ne_nil fun hnil => ?_
    have hlength := pieces_length sep cs
    simp [hnil] at hlength
  exact ⟨first, rest, hp, by rw [pieces, if_neg hc, hp]⟩

/-- What follows the last separator is the end of the last piece. -/
theorem pieces_append_of_notMem (sep : Char) (cs : List Char) :
    ∃ front last, pieces sep cs = front ++ [last] ∧
      ∀ back, sep ∉ back → pieces sep (cs ++ back) = front ++ [last ++ back] := by
  induction cs with
  | nil => exact ⟨[], [], rfl, fun back hback => pieces_of_notMem hback⟩
  | cons c cs ih =>
    obtain ⟨front, last, hp, happend⟩ := ih
    by_cases hc : c = sep
    · refine ⟨[] :: front, last, ?_, fun back hback => ?_⟩
      · rw [pieces, if_pos hc, hp, List.cons_append]
      · rw [List.cons_append, pieces, if_pos hc, happend back hback, List.cons_append]
    · cases front with
      | nil =>
        refine ⟨[], c :: last, ?_, fun back hback => ?_⟩
        · rw [pieces, if_neg hc, hp, List.nil_append, List.nil_append]
        · rw [List.cons_append, pieces, if_neg hc, happend back hback, List.nil_append, List.nil_append,
            List.cons_append]
      | cons first front =>
        refine ⟨(c :: first) :: front, last, ?_, fun back hback => ?_⟩
        · rw [pieces, if_neg hc, hp, List.cons_append, List.cons_append]
        · rw [List.cons_append, pieces, if_neg hc, happend back hback, List.cons_append, List.cons_append]

theorem intercalate_pieces (sep : Char) (cs : List Char) : [sep].intercalate (pieces sep cs) = cs := by
  rw [pieces_eq_splitOn, List.intercalate_splitOn]

/-- A dotted name without the white space around it and around its dots. -/
def squeeze (cs : List Char) : List Char :=
  ['.'].intercalate ((pieces '.' cs).map trim)

theorem dot_notMem_of_all_isBlank {cs : List Char} (h : cs.all isBlank = true) : '.' ∉ cs := by
  intro hdot
  have hblank := List.all_eq_true.mp h '.' hdot
  exact absurd hblank (by decide)

theorem squeeze_append_left {front : List Char} (h : front.all isBlank = true) (cs : List Char) :
    squeeze (front ++ cs) = squeeze cs := by
  induction front with
  | nil => rfl
  | cons c front ih =>
    have hc : isBlank c = true := List.all_eq_true.mp h c List.mem_cons_self
    have hdot : c ≠ '.' := fun hc => dot_notMem_of_all_isBlank h (hc ▸ List.mem_cons_self)
    obtain ⟨first, rest, hp, hcons⟩ := pieces_cons_of_ne hdot (front ++ cs)
    rw [← ih (List.all_eq_true.mpr fun d hd => List.all_eq_true.mp h d (List.mem_cons_of_mem c hd)), squeeze,
      squeeze, List.cons_append, hcons, hp, List.map_cons, List.map_cons, trim_cons_of_isBlank hc]

theorem squeeze_append_right {back : List Char} (h : back.all isBlank = true) (cs : List Char) :
    squeeze (cs ++ back) = squeeze cs := by
  obtain ⟨front, last, hp, happend⟩ := pieces_append_of_notMem '.' cs
  rw [squeeze, squeeze, happend back (dot_notMem_of_all_isBlank h), hp]
  simp [trim_append_of_all_isBlank h]

theorem squeeze_trim (cs : List Char) : squeeze (trim cs) = squeeze cs := by
  obtain ⟨front, back, hfront, hback, hcs⟩ := exists_eq_trim cs
  conv_rhs => rw [hcs, squeeze_append_left hfront, squeeze_append_right hback]

theorem solid_intercalate_trim (parts : List (List Char)) :
    solid (['.'].intercalate (parts.map trim)) = solid (['.'].intercalate parts) := by
  induction parts with
  | nil => rfl
  | cons part parts ih =>
    cases parts with
    | nil => simp [solid_trim]
    | cons next parts =>
      simp only [List.map_cons] at ih ⊢
      simp only [List.intercalate_cons_cons, solid_append, solid_trim, ih]

/-- Squeezing takes out white space and nothing else. -/
theorem solid_squeeze (cs : List Char) : solid (squeeze cs) = solid cs := by
  rw [squeeze, solid_intercalate_trim, intercalate_pieces]

theorem trim_eq_nil_iff {cs : List Char} : trim cs = [] ↔ cs.all isBlank = true := by
  constructor
  · intro h
    rw [← solid_eq_nil_iff, ← solid_trim, h]
    rfl
  · intro h
    exact trim_append_of_all_isBlank h []

theorem squeeze_eq_nil_iff {cs : List Char} : squeeze cs = [] ↔ cs.all isBlank = true := by
  constructor
  · intro h
    rw [← solid_eq_nil_iff, ← solid_squeeze, h]
    rfl
  · intro h
    rw [← squeeze_trim, trim_eq_nil_iff.mpr h]
    rfl

/-! ### Cutting a text at its placeholders -/

namespace Template

/-- The text that a template cuts. -/
def text (t : Template) : List Char :=
  t.holes.flatMap (fun hole => hole.1 ++ '\x7b' :: (hole.2 ++ ['\x7d'])) ++ t.rest

theorem text_cons (hole : List Char × List Char) (cuts : List (List Char × List Char)) (rest : List Char) :
    text ⟨hole :: cuts, rest⟩ = hole.1 ++ '\x7b' :: (hole.2 ++ '\x7d' :: text ⟨cuts, rest⟩) := by
  simp [text]

theorem emptied_cons (hole : List Char × List Char) (cuts : List (List Char × List Char)) (rest : List Char) :
    emptied ⟨hole :: cuts, rest⟩ = hole.1 ++ '\x7b' :: '\x7d' :: emptied ⟨cuts, rest⟩ := by
  simp [emptied]

/-- `t` cuts `raw` at its placeholders: each runs from an opening brace to the next closing one, and after the last
    no opening brace is closed. -/
structure Cuts (t : Template) (raw : List Char) : Prop where
  text : t.text = raw
  before : ∀ hole ∈ t.holes, '\x7b' ∉ hole.1
  content : ∀ hole ∈ t.holes, '\x7d' ∉ hole.2
  rest : ¬ ['\x7b', '\x7d'].Sublist t.rest

theorem Cuts.cons {t : Template} {raw : List Char} (h : t.Cuts raw) {c : Char} (hc : c ≠ '\x7b') :
    (t.cons c).Cuts (c :: raw) := by
  obtain ⟨holes, rest⟩ := t
  obtain ⟨htext, hbefore, hcontent, hrest⟩ := h
  cases holes with
  | nil =>
    refine ⟨congrArg (c :: ·) htext, by simp [Template.cons], by simp [Template.cons], ?_⟩
    intro hsub
    cases hsub with
    | cons _ hsub => exact hrest hsub
    | cons_cons _ _ => exact hc rfl
  | cons hole holes =>
    obtain ⟨hfirst, hothers⟩ := List.forall_mem_cons.mp hbefore
    have hnotMem : '\x7b' ∉ c :: hole.1 := List.not_mem_cons_of_ne_of_not_mem hc.symm hfirst
    exact ⟨congrArg (c :: ·) htext, List.forall_mem_cons.mpr ⟨hnotMem, hothers⟩,
      List.forall_mem_cons.mpr (List.forall_mem_cons.mp hcontent), hrest⟩

theorem Cuts.hole {t : Template} {raw : List Char} (h : t.Cuts raw) {content : List Char} (hc : '\x7d' ∉ content) :
    Cuts ⟨([], content) :: t.holes, t.rest⟩ ('\x7b' :: (content ++ '\x7d' :: raw)) where
  text := by rw [text_cons, h.text, List.nil_append]
  before := List.forall_mem_cons.mpr ⟨List.not_mem_nil, h.before⟩
  content := List.forall_mem_cons.mpr ⟨hc, h.content⟩
  rest := h.rest

/-- Scanning cuts what is still to be read, with the open brace and what has been read since in front of it. -/
theorem scan_cuts (cs : List Char) :
    (scan none cs).Cuts cs ∧
      ∀ content, '\x7d' ∉ content → (scan (some content) cs).Cuts ('\x7b' :: (content.reverse ++ cs)) := by
  induction cs with
  | nil =>
    refine ⟨⟨rfl, by simp [scan], by simp [scan], by simp [scan]⟩, fun content hc => ?_⟩
    refine ⟨by simp [scan, Template.text], by simp [scan], by simp [scan], ?_⟩
    intro hsub
    have hmem : '\x7d' ∈ '\x7b' :: content.reverse := hsub.subset (by simp)
    simp [hc] at hmem
  | cons c cs ih =>
    obtain ⟨hclosed, hopen⟩ := ih
    refine ⟨?_, fun content hcontent => ?_⟩
    · rw [scan]
      split
      next hc => simpa [hc] using hopen [] List.not_mem_nil
      next hc => exact hclosed.cons hc
    · rw [scan]
      split
      next hc =>
        have hreverse : '\x7d' ∉ content.reverse := by simpa using hcontent
        simpa [hc] using hclosed.hole hreverse
      next hc => simpa using hopen (c :: content) (by simp [hcontent, Ne.symm hc])

theorem parse_cuts (raw : List Char) : (parse raw).Cuts raw :=
  (scan_cuts raw).1

end Template

/-! ### Holes -/

/-- The number of holes in a text, each an opening brace with the closing one right after it. -/
def countHoles : List Char → Nat
  | [] => 0
  | c :: cs => (if c = '\x7b' ∧ cs.head? = some '\x7d' then 1 else 0) + countHoles cs

/-- Puts labels into the holes of a text, from left to right. -/
def fill : List Char → List (List Char) → List Char
  | [], _ => []
  | c :: cs, [] => c :: cs
  | c :: cs, label :: labels =>
    if c = '\x7b' ∧ cs.head? = some '\x7d' then c :: (label ++ fill cs labels) else c :: fill cs (label :: labels)

theorem fill_nil (cs : List Char) : fill cs [] = cs := by
  cases cs <;> rfl

theorem countHoles_append {before : List Char} (h : '\x7b' ∉ before) (cs : List Char) :
    countHoles (before ++ cs) = countHoles cs := by
  induction before with
  | nil => rfl
  | cons c before ih =>
    have hc : c ≠ '\x7b' := (List.ne_of_not_mem_cons h).symm
    simp [countHoles, hc, ih (List.not_mem_of_not_mem_cons h)]

theorem fill_append {before : List Char} (h : '\x7b' ∉ before) (cs : List Char) (labels : List (List Char)) :
    fill (before ++ cs) labels = before ++ fill cs labels := by
  cases labels with
  | nil => rw [fill_nil, fill_nil]
  | cons label labels =>
    induction before with
    | nil => rfl
    | cons c before ih =>
      have hc : c ≠ '\x7b' := (List.ne_of_not_mem_cons h).symm
      simp [fill, hc, ih (List.not_mem_of_not_mem_cons h)]

theorem countHoles_hole (cs : List Char) : countHoles ('\x7b' :: '\x7d' :: cs) = countHoles cs + 1 := by
  simp [countHoles, Nat.add_comm]

theorem fill_hole (cs label : List Char) (labels : List (List Char)) :
    fill ('\x7b' :: '\x7d' :: cs) (label :: labels) = '\x7b' :: (label ++ '\x7d' :: fill cs labels) := by
  cases labels with
  | nil => simp [fill, fill_nil]
  | cons next labels => simp [fill]

/-- Without an opening brace that is closed later there is no hole. -/
theorem countHoles_eq_zero {cs : List Char} (h : ¬ ['\x7b', '\x7d'].Sublist cs) : countHoles cs = 0 := by
  induction cs with
  | nil => rfl
  | cons c cs ih =>
    have hcs : countHoles cs = 0 := ih fun hsub => h (hsub.cons c)
    rw [countHoles, hcs, if_neg]
    rintro ⟨rfl, hhead⟩
    obtain ⟨rest, rfl⟩ := List.head?_eq_some_iff.mp hhead
    exact h ((List.nil_sublist rest).cons_cons _ |>.cons_cons _)

namespace Template

/-- The template with other contents in its placeholders. -/
def relabel (f : List Char → List Char) (t : Template) : Template :=
  ⟨t.holes.map fun hole => (hole.1, f hole.2), t.rest⟩

/-- There is one hole for each placeholder. -/
theorem Cuts.countHoles_emptied {t : Template} {raw : List Char} (h : t.Cuts raw) :
    countHoles t.emptied = t.holes.length := by
  obtain ⟨cuts, rest⟩ := t
  have hbefore := h.before
  have hrest : countHoles rest = 0 := countHoles_eq_zero h.rest
  clear h
  induction cuts with
  | nil => exact hrest
  | cons hole cuts ih =>
    obtain ⟨hfirst, hothers⟩ := List.forall_mem_cons.mp hbefore
    rw [emptied_cons, countHoles_append hfirst, countHoles_hole, ih hothers, List.length_cons]

/-- Filling the holes with the contents, as they are or changed, gives the text with those contents. -/
theorem Cuts.fill_emptied {t : Template} {raw : List Char} (h : t.Cuts raw) (f : List Char → List Char) :
    fill t.emptied (t.holes.map (f ·.2)) = (t.relabel f).text := by
  obtain ⟨cuts, rest⟩ := t
  have hbefore := h.before
  clear h
  induction cuts with
  | nil => exact fill_nil _
  | cons hole cuts ih =>
    obtain ⟨hfirst, hothers⟩ := List.forall_mem_cons.mp hbefore
    rw [emptied_cons, List.map_cons, fill_append hfirst, fill_hole, ih hothers]
    exact (text_cons (hole.1, f hole.2) _ rest).symm

theorem solid_relabel_squeeze (t : Template) : solid (t.relabel squeeze).text = solid t.text := by
  obtain ⟨cuts, rest⟩ := t
  induction cuts with
  | nil => rfl
  | cons hole cuts ih =>
    calc solid (relabel squeeze ⟨hole :: cuts, rest⟩).text
        = solid (hole.1 ++ ['\x7b'] ++ squeeze hole.2 ++ ['\x7d'] ++ (relabel squeeze ⟨cuts, rest⟩).text) := by
          simp [relabel, text_cons]
      _ = solid (hole.1 ++ ['\x7b'] ++ hole.2 ++ ['\x7d'] ++ text ⟨cuts, rest⟩) := by
          simp only [solid_append, solid_squeeze, ih]
      _ = solid (text ⟨hole :: cuts, rest⟩) := by simp [text_cons]

/-- The squeezed names are the squeezed contents that are not empty. -/
theorem names_map_squeeze (t : Template) :
    t.names.map squeeze = (t.holes.map (squeeze ·.2)).filter (!·.isEmpty) := by
  obtain ⟨cuts, rest⟩ := t
  induction cuts with
  | nil => rfl
  | cons hole cuts ih =>
    have hempty : (squeeze hole.2).isEmpty = (trim hole.2).isEmpty := by
      rw [Bool.eq_iff_iff, List.isEmpty_iff, List.isEmpty_iff, squeeze_eq_nil_iff, trim_eq_nil_iff]
    simp only [names, List.map_cons, List.filter_cons, hempty] at ih ⊢
    split
    · rw [List.map_cons, squeeze_trim, ih]
    · exact ih

/-- A placeholder is blank or has a name. -/
theorem length_names_add (t : Template) :
    t.names.length + t.holes.countP (·.2.all isBlank) = t.holes.length := by
  obtain ⟨cuts, rest⟩ := t
  induction cuts with
  | nil => rfl
  | cons hole cuts ih =>
    have hempty : (trim hole.2).isEmpty = hole.2.all isBlank := by
      rw [Bool.eq_iff_iff, List.isEmpty_iff, trim_eq_nil_iff]
    simp only [names, List.map_cons, List.filter_cons, hempty, List.countP_cons, List.length_cons] at ih ⊢
    cases hole.2.all isBlank <;> simp at ih ⊢ <;> omega

end Template

/-- Names with dots between them. -/
def joined (names : List String) : List Char :=
  ['.'].intercalate (names.map String.toList)

end Text

/-! ### Texts as values -/

namespace Tree

theorem readString_eq_ok {t : Tree} {word : Token} {text : String} {vs : List Value} (hw : t.tokenAt 0 = .ok word)
    (h : t.readString = .ok (.string text (some vs))) :
    text.toList = (Text.Template.parse (Text.unquote word.value).toList).emptied ∧
      vs = (Text.Template.parse (Text.unquote word.value).toList).names.map placeholderPath := by
  rw [readString, hw] at h
  obtain ⟨htext, hvalues⟩ := Value.string.inj (Except.ok.inj h)
  refine ⟨by rw [← htext, String.toList_ofList], ?_⟩
  split at hvalues
  · cases hvalues
  · exact (Option.some.inj hvalues).symm

/-- The path of a placeholder joins to its squeezed name. -/
theorem exists_placeholderPaths (names : List (List Char)) :
    ∃ paths : List (List String), names.map placeholderPath = paths.map Value.ofNames ∧
      paths.map Text.joined = names.map Text.squeeze := by
  refine ⟨names.map fun name => (Text.pieces '.' name).map fun piece => String.ofList (Text.trim piece), ?_, ?_⟩
  · simp [placeholderPath]
  · simp [Text.joined, Text.squeeze, Function.comp_def]

/-- A text that has values has a hole for each of them and for each blank placeholder. The holes filled with the
    names of the values, the blank ones left as they are, give the text back but for white space; if no placeholder is
    blank the names alone do. -/
theorem readString_fills {t : Tree} {word : Token} {text : String} {vs : List Value} (hw : t.tokenAt 0 = .ok word)
    (h : t.readString = .ok (.string text (some vs))) :
    ∃ (template : Text.Template) (paths : List (List String)),
      template.Cuts (Text.unquote word.value).toList ∧ vs = paths.map Value.ofNames ∧
      Text.countHoles text.toList = vs.length + template.holes.countP (·.2.all Text.isBlank) ∧
      paths.map Text.joined = (template.holes.map (Text.squeeze ·.2)).filter (!·.isEmpty) ∧
      Text.fill text.toList (template.holes.map (Text.squeeze ·.2)) = (template.relabel Text.squeeze).text ∧
      Text.solid (template.relabel Text.squeeze).text = Text.solid (Text.unquote word.value).toList ∧
      ((∀ hole ∈ template.holes, hole.2.all Text.isBlank = false) →
        Text.countHoles text.toList = vs.length ∧
        Text.fill text.toList (paths.map Text.joined) = (template.relabel Text.squeeze).text) := by
  obtain ⟨htext, hvs⟩ := readString_eq_ok hw h
  have hcuts := Text.Template.parse_cuts (Text.unquote word.value).toList
  generalize Text.Template.parse (Text.unquote word.value).toList = template at htext hvs hcuts
  obtain ⟨paths, hpaths, hjoined⟩ := exists_placeholderPaths template.names
  have hlength : vs.length = template.names.length := by rw [hvs, List.length_map]
  have hholes : Text.countHoles text.toList = vs.length + template.holes.countP (·.2.all Text.isBlank) := by
    rw [htext, hcuts.countHoles_emptied, hlength, template.length_names_add]
  have hlabels : paths.map Text.joined = (template.holes.map (Text.squeeze ·.2)).filter (!·.isEmpty) := by
    rw [hjoined, template.names_map_squeeze]
  have hfill : Text.fill text.toList (template.holes.map (Text.squeeze ·.2)) = (template.relabel Text.squeeze).text := by
    rw [htext, hcuts.fill_emptied]
  refine ⟨template, paths, hcuts, hvs.trans hpaths, hholes, hlabels, hfill, ?_, fun hnamed => ⟨?_, ?_⟩⟩
  · rw [template.solid_relabel_squeeze, hcuts.text]
  · rw [hholes, List.countP_eq_zero.mpr fun hole hmem => by simp [hnamed hole hmem], Nat.add_zero]
  · -- No label is empty, so each hole has a value of its own.
    have hall : (template.holes.map (Text.squeeze ·.2)).filter (!·.isEmpty) = template.holes.map (Text.squeeze ·.2) := by
      refine List.filter_eq_self.mpr fun label hmem => ?_
      obtain ⟨hole, hhole, rfl⟩ := List.mem_map.mp hmem
      have hne : Text.squeeze hole.2 ≠ [] := fun hnil => by
        have hblank := Text.squeeze_eq_nil_iff.mp hnil
        rw [hnamed hole hhole] at hblank
        cases hblank
      simpa using hne
    rw [hlabels, hall, hfill]

theorem readString_fills_greeting :
    (Shape.string "hi \x7b a . b \x7d, \x7b \x7d \x7bn\x7d \x7bx" 1).readString =
        .ok (.string "hi \x7b\x7d, \x7b\x7d \x7b\x7d \x7bx" (some [.ofNames ["a", "b"], .ofNames ["n"]])) ∧
      ∃ template : Text.Template, template.Cuts "hi \x7b a . b \x7d, \x7b \x7d \x7bn\x7d \x7bx".toList ∧
        template.holes.countP (·.2.all Text.isBlank) = 1 ∧
        Text.fill "hi \x7b\x7d, \x7b\x7d \x7b\x7d \x7bx".toList (template.holes.map (Text.squeeze ·.2)) =
          (template.relabel Text.squeeze).text := by
  have hread : (Shape.string "hi \x7b a . b \x7d, \x7b \x7d \x7bn\x7d \x7bx" 1).readString =
      .ok (.string "hi \x7b\x7d, \x7b\x7d \x7b\x7d \x7bx" (some [.ofNames ["a", "b"], .ofNames ["n"]])) := by
    cbv
  have hholes : Text.countHoles "hi \x7b\x7d, \x7b\x7d \x7b\x7d \x7bx".toList = 3 := by decide
  obtain ⟨template, paths, hcuts, -, hcount, -, hfill, -⟩ := readString_fills rfl hread
  rw [hholes] at hcount
  refine ⟨hread, template, ?_, ?_, hfill⟩
  · exact hcuts
  · simp only [List.length_cons, List.length_nil] at hcount
    omega

/-- Empty braces in front of a placeholder take its value. -/
theorem empty_braces_filled :
    ∃ (text : String) (path : List String),
      (Shape.string "\x7b\x7d\x7bx\x7d" 1).readString = .ok (.string text (some [.ofNames path])) ∧
        Text.countHoles text.toList ≠ 1 ∧
        Text.solid (Text.fill text.toList [Text.joined path]) ≠ Text.solid "\x7b\x7d\x7bx\x7d".toList :=
  ⟨"\x7b\x7d\x7b\x7d", ["x"], by cbv, by decide, by decide⟩

end Tree

end Flowline
