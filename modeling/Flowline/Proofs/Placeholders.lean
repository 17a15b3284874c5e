import Flowline.Proofs.Templates

/-! Finding the placeholders of a text by byte offsets. A search answers the byte offset of a character, and the text
    is then cut at offsets made from such answers. A cut outside of the text or within a character fails. None of the
    cuts that the search for placeholders makes does, and what they give is the one way to cut the text at its
    placeholders. -/

namespace Flowline

namespace Text

/-! ### Byte offsets -/

/-- The number of bytes that the characters take in UTF-8. -/
def byteLength (cs : List Char) : Nat :=
  (cs.map Char.utf8Size).sum

theorem byteLength_cons (c : Char) (cs : List Char) : byteLength (c :: cs) = c.utf8Size + byteLength cs := by
  simp [byteLength]

theorem byteLength_append (cs cs' : List Char) : byteLength (cs ++ cs') = byteLength cs + byteLength cs' := by
  simp [byteLength]

/-- Cuts a text at a byte offset, unless the offset is outside of the text or within a character. -/
def cutAt? : Nat → List Char → Option (List Char × List Char)
  | 0, cs => some ([], cs)
  | _ + 1, [] => none
  | n + 1, c :: cs =>
    if c.utf8Size ≤ n + 1 then (cutAt? (n + 1 - c.utf8Size) cs).map fun cut => (c :: cut.1, cut.2) else none

/-- The text up to a byte offset. -/
def upTo? (stop : Nat) (cs : List Char) : Option (List Char) :=
  (cutAt? stop cs).map (·.1)

/-- The text from a byte offset on. -/
def from? (start : Nat) (cs : List Char) : Option (List Char) :=
  (cutAt? start cs).map (·.2)

/-- The text between two byte offsets. -/
def slice? (start stop : Nat) (cs : List Char) : Option (List Char) :=
  (upTo? stop cs).bind (from? start)

/-- The byte offset of the first occurrence of a character. -/
def offset? (c : Char) (cs : List Char) : Option Nat :=
  if c ∈ cs then some (byteLength (cs.takeWhile (· != c))) else none

theorem cutAt?_append (cs cs' : List Char) : cutAt? (byteLength cs) (cs ++ cs') = some (cs, cs') := by
  induction cs with
  | nil => exact cutAt?.eq_1 cs'
  | cons c cs ih =>
    have hpos := c.utf8Size_pos
    obtain ⟨n, hn⟩ : ∃ n, byteLength (c :: cs) = n + 1 := ⟨c.utf8Size + byteLength cs - 1, by
      rw [byteLength_cons]
      omega⟩
    have hle : c.utf8Size ≤ n + 1 := by
      rw [← hn, byteLength_cons]
      omega
    have hrest : n + 1 - c.utf8Size = byteLength cs := by
      rw [← hn, byteLength_cons]
      omega
    rw [hn, List.cons_append, cutAt?, if_pos hle, hrest, ih]
    rfl

theorem cutAt?_eq_some {n : Nat} {cs front back : List Char} (h : cutAt? n cs = some (front, back)) :
    front ++ back = cs ∧ byteLength front = n := by
  induction cs generalizing n front with
  | nil =>
    cases n with
    | zero =>
      cases h
      exact ⟨rfl, rfl⟩
    | succ n => cases h
  | cons c cs ih =>
    cases n with
    | zero =>
      cases h
      exact ⟨rfl, rfl⟩
    | succ n =>
      rw [cutAt?] at h
      split at h
      · rename_i hle
        obtain ⟨⟨front', back'⟩, hcut, heq⟩ := Option.map_eq_some_iff.mp h
        cases heq
        obtain ⟨rfl, hlength⟩ := ih hcut
        refine ⟨rfl, ?_⟩
        rw [byteLength_cons, hlength]
        omega
      · cases h

theorem upTo?_append (cs cs' : List Char) : upTo? (byteLength cs) (cs ++ cs') = some cs := by
  rw [upTo?, cutAt?_append]
  rfl

theorem from?_append (cs cs' : List Char) : from? (byteLength cs) (cs ++ cs') = some cs' := by
  rw [from?, cutAt?_append]
  rfl

theorem slice?_append (front cs back : List Char) :
    slice? (byteLength front) (byteLength front + byteLength cs) (front ++ (cs ++ back)) = some cs := by
  rw [slice?, ← byteLength_append, ← List.append_assoc, upTo?_append]
  exact from?_append front cs

theorem length_lt_of_from? {n : Nat} {cs rest : List Char} (h : from? (n + 1) cs = some rest) :
    rest.length < cs.length := by
  obtain ⟨⟨front, back⟩, hcut, rfl⟩ := Option.map_eq_some_iff.mp h
  obtain ⟨rfl, hlength⟩ := cutAt?_eq_some hcut
  cases front with
  | nil => cases hlength
  | cons c front =>
    simp only [List.length_append, List.length_cons]
    omega

theorem takeWhile_append_cons {c : Char} {before : List Char} (h : c ∉ before) (rest : List Char) :
    (before ++ c :: rest).takeWhile (· != c) = before := by
  have hbefore : ∀ d ∈ before, (d != c) = true := fun d hd => bne_iff_ne.mpr (ne_of_mem_of_not_mem hd h)
  rw [List.takeWhile_append_of_pos hbefore, List.takeWhile_cons_of_neg (by simp), List.append_nil]

/-- The first occurrence of a character cuts a text in one way. -/
theorem append_cons_inj {c : Char} {before before' rest rest' : List Char} (h : c ∉ before) (h' : c ∉ before')
    (heq : before ++ c :: rest = before' ++ c :: rest') : before = before' ∧ rest = rest' := by
  have hbefore : before = before' := by
    rw [← takeWhile_append_cons h rest, heq, takeWhile_append_cons h']
  subst hbefore
  exact ⟨rfl, List.tail_eq_of_cons_eq (List.append_cancel_left heq)⟩

theorem offset?_append {c : Char} {before : List Char} (h : c ∉ before) (rest : List Char) :
    offset? c (before ++ c :: rest) = some (byteLength before) := by
  rw [offset?, if_pos (by simp), takeWhile_append_cons h]

theorem offset?_eq_none {c : Char} {cs : List Char} (h : c ∉ cs) : offset? c cs = none :=
  if_neg h

/-! ### The search for placeholders -/

/-- Searches the rest of a text for placeholders. `kept` and `found` are what has been found so far: the text with its
    placeholders emptied, and the trimmed contents of those that are not blank. -/
def split? (rest kept : List Char) (found : List (List Char)) : Option (List Char × List (List Char)) :=
  match offset? '\x7b' rest with
  | none => some (kept ++ rest, found)
  | some opening =>
    (from? (opening + 1) rest).bind fun inside =>
      match offset? '\x7d' inside with
      | none => some (kept ++ rest, found)
      | some length =>
        (slice? (opening + 1) (opening + 1 + length) rest).bind fun content =>
          (upTo? opening rest).bind fun before =>
            match _hafter : from? (opening + length + 2) rest with
            | none => none
            | some after =>
              split? after (kept ++ before ++ ['\x7b', '\x7d'])
                (if (trim content).isEmpty then found else found ++ [trim content])
termination_by rest.length
decreasing_by exact length_lt_of_from? _hafter

namespace Template

theorem names_cons (hole : List Char × List Char) (cuts : List (List Char × List Char)) (rest : List Char) :
    names ⟨hole :: cuts, rest⟩ =
      (if (trim hole.2).isEmpty then [] else [trim hole.2]) ++ names ⟨cuts, rest⟩ := by
  simp only [names, List.map_cons, List.filter_cons]
  split <;> simp_all

/-- After the last placeholder nothing is found: there is no opening brace, or none that is closed. -/
theorem split?_of_not_sublist {rest : List Char} (h : ¬ ['\x7b', '\x7d'].Sublist rest) (kept : List Char)
    (found : List (List Char)) : split? rest kept found = some (kept ++ rest, found) := by
  by_cases hopen : '\x7b' ∈ rest
  · obtain ⟨before, inside, hrest, hbefore⟩ := List.eq_append_cons_of_mem hopen
    have hinside : '\x7d' ∉ inside := by
      intro hclose
      have hsub : ['\x7b', '\x7d'].Sublist ('\x7b' :: inside) := (List.singleton_sublist.mpr hclose).cons_cons _
      exact h (hrest ▸ hsub.trans (List.sublist_append_right before _))
    have hopening : offset? '\x7b' rest = some (byteLength before) := by rw [hrest, offset?_append hbefore]
    have hfrom : from? (byteLength before + 1) rest = some inside := by
      have hcut := from?_append (before ++ ['\x7b']) inside
      rwa [byteLength_append, List.append_assoc, List.singleton_append, ← hrest] at hcut
    rw [split?, hopening]
    simp only [hfrom, Option.bind_some, offset?_eq_none hinside]
  · rw [split?, offset?_eq_none hopen]

/-- One round: the first placeholder is emptied, and the search goes on behind it. -/
theorem split?_hole {before content : List Char} (hbefore : '\x7b' ∉ before) (hcontent : '\x7d' ∉ content)
    (after kept : List Char) (found : List (List Char)) :
    split? (before ++ '\x7b' :: (content ++ '\x7d' :: after)) kept found =
      split? after (kept ++ before ++ ['\x7b', '\x7d'])
        (if (trim content).isEmpty then found else found ++ [trim content]) := by
  have hopening := offset?_append hbefore (content ++ '\x7d' :: after)
  have hclosing := offset?_append hcontent after
  have hsize : byteLength (before ++ ['\x7b']) = byteLength before + 1 := byteLength_append before ['\x7b']
  have hend : byteLength (before ++ '\x7b' :: (content ++ ['\x7d'])) = byteLength before + byteLength content + 2 := by
    rw [byteLength_append, byteLength_cons, byteLength_append]
    change byteLength before + (1 + (byteLength content + 1)) = _
    omega
  have hinside := from?_append (before ++ ['\x7b']) (content ++ '\x7d' :: after)
  have hslice := slice?_append (before ++ ['\x7b']) content ('\x7d' :: after)
  have hupTo := upTo?_append before ('\x7b' :: (content ++ '\x7d' :: after))
  have hafter := from?_append (before ++ '\x7b' :: (content ++ ['\x7d'])) after
  rw [hsize] at hinside hslice
  rw [hend] at hafter
  simp only [List.append_assoc, List.cons_append, List.nil_append] at hinside hslice hafter
  rw [split?, hopening]
  simp only [hinside, hclosing, hslice, hupTo, Option.bind_some]
  split
  · rename_i hnone
    rw [hafter] at hnone
    cases hnone
  · rename_i found' hfound
    rw [hafter] at hfound
    cases hfound
    rfl

/-- Whatever cuts a text at its placeholders, the search finds it. -/
theorem Cuts.split?_eq {t : Template} {raw : List Char} (h : t.Cuts raw) (kept : List Char)
    (found : List (List Char)) : split? raw kept found = some (kept ++ t.emptied, found ++ t.names) := by
  obtain ⟨cuts, rest⟩ := t
  induction cuts generalizing raw kept found with
  | nil =>
    obtain rfl : rest = raw := h.text
    rw [split?_of_not_sublist h.rest]
    simp [emptied, names]
  | cons hole cuts ih =>
    obtain ⟨hbefore, hbefores⟩ := List.forall_mem_cons.mp h.before
    obtain ⟨hcontent, hcontents⟩ := List.forall_mem_cons.mp h.content
    have htail : Cuts ⟨cuts, rest⟩ (Template.text ⟨cuts, rest⟩) := ⟨rfl, hbefores, hcontents, h.rest⟩
    rw [← h.text, text_cons, split?_hole hbefore hcontent, ih _ _ htail, emptied_cons, names_cons]
    split <;> simp

/-- A text with a placeholder has an opening brace that is closed. -/
theorem Cuts.sublist {hole : List Char × List Char} {cuts : List (List Char × List Char)} {rest raw : List Char}
    (h : Cuts ⟨hole :: cuts, rest⟩ raw) : ['\x7b', '\x7d'].Sublist raw := by
  rw [← h.text, text_cons]
  refine List.Sublist.trans ?_ (List.sublist_append_right hole.1 _)
  exact (List.singleton_sublist.mpr (by simp)).cons_cons _

/-- There is one way to cut a text at its placeholders. -/
theorem Cuts.unique {t u : Template} {raw : List Char} (ht : t.Cuts raw) (hu : u.Cuts raw) : t = u := by
  obtain ⟨cuts, rest⟩ := t
  obtain ⟨cuts', rest'⟩ := u
  induction cuts generalizing raw cuts' with
  | nil =>
    obtain rfl : rest = raw := ht.text
    cases cuts' with
    | nil =>
      obtain rfl : rest' = rest := hu.text
      rfl
    | cons hole cuts' => exact absurd hu.sublist ht.rest
  | cons hole cuts ih =>
    cases cuts' with
    | nil =>
      obtain rfl : rest' = raw := hu.text
      exact absurd ht.sublist hu.rest
    | cons hole' cuts' =>
      -- The first opening brace ends the text before the placeholder, and the next closing brace ends its content.
      obtain ⟨hbefore, hbefores⟩ := List.forall_mem_cons.mp ht.before
      obtain ⟨hbefore', hbefores'⟩ := List.forall_mem_cons.mp hu.before
      obtain ⟨hcontent, hcontents⟩ := List.forall_mem_cons.mp ht.content
      obtain ⟨hcontent', hcontents'⟩ := List.forall_mem_cons.mp hu.content
      have htext := ht.text.trans hu.text.symm
      rw [text_cons, text_cons] at htext
      obtain ⟨hfirst, htext⟩ := append_cons_inj hbefore hbefore' htext
      obtain ⟨hsecond, htext⟩ := append_cons_inj hcontent hcontent' htext
      have htail : Cuts ⟨cuts, rest⟩ (Template.text ⟨cuts, rest⟩) := ⟨rfl, hbefores, hcontents, ht.rest⟩
      have htail' : Cuts ⟨cuts', rest'⟩ (Template.text ⟨cuts, rest⟩) := ⟨htext.symm, hbefores', hcontents', hu.rest⟩
      obtain ⟨rfl, rfl⟩ := Template.mk.inj (ih htail cuts' htail')
      rw [show hole = hole' from Prod.ext hfirst hsecond]

theorem names_eq (t : Template) :
    t.names = (t.holes.filter fun hole => !hole.2.all isBlank).map fun hole => trim hole.2 := by
  have hempty : ∀ hole : List Char × List Char, (trim hole.2).isEmpty = hole.2.all isBlank := fun hole => by
    rw [Bool.eq_iff_iff, List.isEmpty_iff, trim_eq_nil_iff]
  rw [names, List.filter_map]
  simp only [Function.comp_def, hempty]

theorem names_eq_nil_iff {t : Template} : t.names = [] ↔ ∀ hole ∈ t.holes, hole.2.all isBlank = true := by
  rw [names_eq, List.map_eq_nil_iff, List.filter_eq_nil_iff]
  simp only [Bool.not_eq_true', Bool.not_eq_false]

end Template

end Text

/-! ### Texts as values -/

namespace Tree

theorem readString_eq {t : Tree} {word : Token} (hw : t.tokenAt 0 = .ok word) {template : Text.Template}
    (hcuts : template.Cuts (Text.unquote word.value).toList) :
    t.readString = .ok (.string (String.ofList template.emptied)
      (if template.names = [] then none else some (template.names.map placeholderPath))) := by
  have hread : t.readString =
      let values := (Text.Template.parse (Text.unquote word.value).toList).names.map placeholderPath
      .ok (.string (String.ofList (Text.Template.parse (Text.unquote word.value).toList).emptied)
        (if values.isEmpty then none else some values)) := by
    rw [readString, hw]
    rfl
  rw [hread, (Text.Template.parse_cuts _).unique hcuts]
  simp only [List.isEmpty_map, List.isEmpty_iff]

/-- The search for placeholders makes no cut outside of a text or within a character. What it finds is given by the
    one way to cut the text at its placeholders: there is a hole for each of them, and a name for each that is not
    blank. A text as a value has no values exactly if all its placeholders are blank. -/
theorem placeholders_found (raw : List Char) :
    ∃ (template : Text.Template) (names : List (List Char)),
      template.Cuts raw ∧ (∀ other : Text.Template, other.Cuts raw → other = template) ∧
      names = (template.holes.filter fun hole => !hole.2.all Text.isBlank).map (fun hole => Text.trim hole.2) ∧
      Text.split? raw [] [] = some (template.emptied, names) ∧
      Text.countHoles template.emptied = template.holes.length ∧
      ∀ (t : Tree) (word : Token), t.tokenAt 0 = .ok word → (Text.unquote word.value).toList = raw →
        ∃ values, t.readString = .ok (.string (String.ofList template.emptied) values) ∧
          (values = none ↔ ∀ hole ∈ template.holes, hole.2.all Text.isBlank = true) ∧
          ∀ vs ∈ values, vs = names.map placeholderPath := by
  have hcuts := Text.Template.parse_cuts raw
  generalize Text.Template.parse raw = template at hcuts
  refine ⟨template, template.names, hcuts, fun other hother => hother.unique hcuts, template.names_eq, ?_,
    hcuts.countHoles_emptied, ?_⟩
  · exact hcuts.split?_eq [] []
  · rintro t word hw rfl
    refine ⟨_, readString_eq hw hcuts, ?_, ?_⟩
    · rw [← Text.Template.names_eq_nil_iff]
      split <;> simp_all
    · intro vs hvs
      split at hvs
      · cases hvs
      · exact (Option.some.inj hvs).symm

end Tree

/-- Braces within braces, a blank placeholder, characters of several bytes, and a brace that is never closed. -/
def Sample.braces : String :=
  "é\x7b\x7ba\x7d\x7d→\x7b \x7d\x7b ü.b \x7d\x7bß"

theorem Tree.placeholders_found_nested :
    ∃ template : Text.Template, template.Cuts Sample.braces.toList ∧ template.holes.length = 3 ∧
      Text.split? Sample.braces.toList [] [] =
        some ("é\x7b\x7d\x7d→\x7b\x7d\x7b\x7d\x7bß".toList, ["\x7ba".toList, "ü.b".toList]) ∧
      ∃ vs, (Shape.string Sample.braces 1).readString = .ok (.string "é\x7b\x7d\x7d→\x7b\x7d\x7b\x7d\x7bß" (some vs)) ∧
        vs = [.ofNames ["\x7ba"], .ofNames ["ü", "b"]] := by
  have hcuts : Text.Template.Cuts
      ⟨[("é".toList, "\x7ba".toList), ("\x7d→".toList, " ".toList), ([], " ü.b ".toList)], "\x7bß".toList⟩
      Sample.braces.toList := ⟨by decide, by decide, by decide, by decide⟩
  obtain ⟨template, names, -, hunique, hnames, hsplit, -, hread⟩ := placeholders_found Sample.braces.toList
  obtain rfl := hunique _ hcuts
  obtain ⟨values, hread, hnone, hsome⟩ := hread (Shape.string Sample.braces 1) _ rfl (by decide)
  obtain rfl : names = ["\x7ba".toList, "ü.b".toList] := hnames.trans (by decide)
  refine ⟨_, hcuts, rfl, hsplit, ?_⟩
  cases values with
  | none => exact absurd (hnone.mp rfl) (by decide)
  | some vs =>
    refine ⟨vs, hread, ?_⟩
    rw [hsome vs rfl]
    rfl

end Flowline
