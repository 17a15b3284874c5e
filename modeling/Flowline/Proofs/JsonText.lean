import Flowline.Proofs.Numerals

/-! The text of a JSON value. It follows the grammar of JSON, and different values without an infinity or a NaN have
    different texts. The first character tells what kind of value a text holds, and a text ends where the grammar
    lets nothing more follow, so a value can be told from its text and whatever comes after it. -/

namespace Flowline.Json

/-! ### The grammar -/

/-- A digit of base sixteen. -/
def isHexDigit (c : Char) : Bool :=
  "0123456789abcdefABCDEF".toList.contains c

/-- A character inside a string: itself, or escaped by its letter or its code. -/
inductive IsCharacter : List Char → Prop
  | plain {c : Char} : 0x20 ≤ c.toNat → c ≠ '"' → c ≠ '\\' → IsCharacter [c]
  | letter {c : Char} : c ∈ ['"', '\\', '/', 'b', 'f', 'n', 'r', 't'] → IsCharacter ['\\', c]
  | code {digits : List Char} : digits.length = 4 → digits.all isHexDigit → IsCharacter ('\\' :: 'u' :: digits)

/-- A string. -/
inductive IsString : List Char → Prop
  | mk {characters : List (List Char)} : (∀ l ∈ characters, IsCharacter l) →
    IsString ('"' :: (characters.flatten ++ ['"']))

/-- Characters without meaning between the parts of a text. -/
def IsBlank (l : List Char) : Prop :=
  ∀ c ∈ l, c ∈ [' ', '\t', '\n', '\r']

mutual

/-- A value. -/
inductive IsValue : List Char → Prop
  | word {text : String} : text ∈ ["null", "true", "false"] → IsValue text.toList
  | number {l : List Char} : IsNumber l → IsValue l
  | string {l : List Char} : IsString l → IsValue l
  | emptyArray {blank : List Char} : IsBlank blank → IsValue ('[' :: (blank ++ [']']))
  | array {l : List Char} : IsElements l → IsValue ('[' :: (l ++ [']']))
  | emptyObject {blank : List Char} : IsBlank blank → IsValue ('\x7b' :: (blank ++ ['\x7d']))
  | object {l : List Char} : IsMembers l → IsValue ('\x7b' :: (l ++ ['\x7d']))

/-- A value among blanks. -/
inductive IsElement : List Char → Prop
  | mk {before value after : List Char} : IsBlank before → IsValue value → IsBlank after →
    IsElement (before ++ value ++ after)

/-- Elements with commas between them. -/
inductive IsElements : List Char → Prop
  | last {l : List Char} : IsElement l → IsElements l
  | more {first rest : List Char} : IsElement first → IsElements rest → IsElements (first ++ ',' :: rest)

/-- A name among blanks, a colon, and an element. -/
inductive IsMember : List Char → Prop
  | mk {before name after value : List Char} : IsBlank before → IsString name → IsBlank after → IsElement value →
    IsMember (before ++ name ++ after ++ ':' :: value)

/-- Members with commas between them. -/
inductive IsMembers : List Char → Prop
  | last {l : List Char} : IsMember l → IsMembers l
  | more {first rest : List Char} : IsMember first → IsMembers rest → IsMembers (first ++ ',' :: rest)

end

/-- A JSON text: one value among blanks. -/
def IsText (text : String) : Prop :=
  IsElement text.toList

/-! ### Texts follow the grammar -/

theorem isBlank_nil : IsBlank [] := by simp [IsBlank]

theorem IsValue.element {l : List Char} (h : IsValue l) : IsElement l := by
  simpa using IsElement.mk isBlank_nil h isBlank_nil

theorem IsString.member {name value : List Char} (hname : IsString name) (hvalue : IsElement value) :
    IsMember (name ++ ':' :: value) := by
  simpa using IsMember.mk isBlank_nil hname isBlank_nil hvalue

/-- The characters that are escaped by a letter, each with its letter. -/
def letters : List (Char × Char) :=
  [('"', '"'), ('\\', '\\'), ('\x08', 'b'), ('\t', 't'), ('\n', 'n'), ('\x0c', 'f'), ('\r', 'r')]

/-- The three ways in which a character is written. -/
theorem escaped_cases (c : Char) :
    (∃ letter, (c, letter) ∈ letters ∧ escaped c = ['\\', letter]) ∨
    (c.toNat < 0x20 ∧ escaped c =
      ['\\', 'u', '0', '0', Nat.digitChar (c.toNat / 16), Nat.digitChar (c.toNat % 16)]) ∨
    (0x20 ≤ c.toNat ∧ c ≠ '"' ∧ c ≠ '\\' ∧ escaped c = [c]) := by
  by_cases hletter : ∃ letter, (c, letter) ∈ letters
  · obtain ⟨letter, hmem⟩ := hletter
    refine .inl ⟨letter, hmem, ?_⟩
    fin_cases hmem <;> rfl
  · have hne : ∀ pair ∈ letters, c ≠ pair.1 := fun pair hmem hc => hletter ⟨pair.2, hc ▸ hmem⟩
    simp only [letters, List.forall_mem_cons] at hne
    obtain ⟨hquote, hbackslash, hb, ht, hn, hf, hr, -⟩ := hne
    have hescaped : escaped c = if c.toNat < 0x20 then
        ['\\', 'u', '0', '0', Nat.digitChar (c.toNat / 16), Nat.digitChar (c.toNat % 16)] else [c] := by
      rw [escaped, if_neg hquote, if_neg hbackslash, if_neg hb, if_neg ht, if_neg hn, if_neg hf, if_neg hr]
    rcases Nat.lt_or_ge c.toNat 0x20 with hcode | hplain
    · exact .inr (.inl ⟨hcode, hescaped.trans (if_pos hcode)⟩)
    · exact .inr (.inr ⟨hplain, hquote, hbackslash, hescaped.trans (if_neg hplain.not_gt)⟩)

theorem isHexDigit_digitChar : ∀ n < 16, isHexDigit (Nat.digitChar n) = true := by decide

theorem isCharacter_escaped (c : Char) : IsCharacter (escaped c) := by
  rcases escaped_cases c with ⟨letter, hmem, hescaped⟩ | ⟨hcode, hescaped⟩ | ⟨hplain, hquote, hbackslash, hescaped⟩ <;>
    rw [hescaped]
  · refine .letter ?_
    fin_cases hmem <;> decide
  · have hhigh := isHexDigit_digitChar (c.toNat / 16) (by omega)
    have hlow := isHexDigit_digitChar (c.toNat % 16) (by omega)
    refine .code rfl ?_
    simp only [List.all_cons, List.all_nil, hhigh, hlow]
    rfl
  · exact .plain hplain hquote hbackslash

theorem isString_stringChars (text : String) : IsString (stringChars text) := by
  unfold stringChars
  rw [List.flatMap_def]
  refine .mk fun l hl => ?_
  obtain ⟨c, -, rfl⟩ := List.mem_map.mp hl
  exact isCharacter_escaped c

theorem isValue_numberChars (n : Number) : IsValue (numberChars n) := by
  by_cases hfinite : n.isFinite = true
  · exact .number (isNumber_numberChars hfinite)
  · cases n with
    | int _ => exact absurd rfl hfinite
    | float x =>
      have hnull : floatChars x = "null".toList := if_neg hfinite
      rw [numberChars, hnull]
      exact .word (by decide)

mutual

theorem isValue_chars : ∀ j : Json, IsValue j.chars
  | .null => .word (by decide)
  | .bool true => .word (by decide)
  | .bool false => .word (by decide)
  | .number n => isValue_numberChars n
  | .string text => .string (isString_stringChars text)
  | .array [] => .emptyArray isBlank_nil
  | .array (item :: items) => by
    obtain ⟨rest, hrest, helements⟩ := isElements_charsOfItems items
    have hvalue := IsValue.array (helements _ (isValue_chars item).element)
    simpa [chars, hrest] using hvalue
  | .object [] => .emptyObject isBlank_nil
  | .object ((name, value) :: fields) => by
    obtain ⟨rest, hrest, hmembers⟩ := isMembers_charsOfFields fields
    have hmember := (isString_stringChars name).member (isValue_chars value).element
    have hvalue := IsValue.object (hmembers _ hmember)
    simpa [chars, hrest] using hvalue

/-- What follows the first item are further elements, and the end of the array. -/
theorem isElements_charsOfItems : ∀ items : List Json, ∃ rest, charsOfItems items = rest ++ [']'] ∧
    ∀ first, IsElement first → IsElements (first ++ rest)
  | [] => ⟨[], rfl, fun first hfirst => by simpa using IsElements.last hfirst⟩
  | item :: items => by
    obtain ⟨rest, hrest, helements⟩ := isElements_charsOfItems items
    refine ⟨',' :: (item.chars ++ rest), by simp [charsOfItems, hrest], fun first hfirst => ?_⟩
    exact .more hfirst (helements _ (isValue_chars item).element)

/-- What follows the first field are further members, and the end of the object. -/
theorem isMembers_charsOfFields : ∀ fields : List (String × Json), ∃ rest, charsOfFields fields = rest ++ ['\x7d'] ∧
    ∀ first, IsMember first → IsMembers (first ++ rest)
  | [] => ⟨[], rfl, fun first hfirst => by simpa using IsMembers.last hfirst⟩
  | (name, value) :: fields => by
    obtain ⟨rest, hrest, hmembers⟩ := isMembers_charsOfFields fields
    have hmember := (isString_stringChars name).member (isValue_chars value).element
    refine ⟨',' :: (stringChars name ++ ':' :: value.chars ++ rest), by simp [charsOfFields, hrest],
      fun first hfirst => ?_⟩
    exact .more hfirst (hmembers _ hmember)

end

/-! ### Texts tell strings apart -/

/-- The value of a digit of base sixteen. -/
def hexValue (c : Char) : ℕ :=
  if c.isDigit then c.toNat - '0'.toNat else c.toNat - 'a'.toNat + 10

/-- Reads one character inside a string; the quote that ends the string is none. -/
def unescape? : List Char → Option (Char × List Char)
  | '\\' :: 'u' :: _ :: _ :: high :: low :: rest => some (Char.ofNat (16 * hexValue high + hexValue low), rest)
  | '\\' :: 'b' :: rest => some ('\x08', rest)
  | '\\' :: 't' :: rest => some ('\t', rest)
  | '\\' :: 'n' :: rest => some ('\n', rest)
  | '\\' :: 'f' :: rest => some ('\x0c', rest)
  | '\\' :: 'r' :: rest => some ('\r', rest)
  | '\\' :: c :: rest => some (c, rest)
  | '"' :: _ => none
  | c :: rest => some (c, rest)
  | [] => none

theorem hexValue_digitChar :
    ∀ n < 0x20, 16 * hexValue (Nat.digitChar (n / 16)) + hexValue (Nat.digitChar (n % 16)) = n := by
  decide

theorem unescape?_plain {c : Char} (hquote : c ≠ '"') (hbackslash : c ≠ '\\') (rest : List Char) :
    unescape? (c :: rest) = some (c, rest) := by
  unfold unescape?
  split <;> simp_all

theorem unescape?_escaped (c : Char) (rest : List Char) : unescape? (escaped c ++ rest) = some (c, rest) := by
  rcases escaped_cases c with ⟨letter, hmem, hescaped⟩ | ⟨hcode, hescaped⟩ | ⟨-, hquote, hbackslash, hescaped⟩ <;>
    rw [hescaped]
  · fin_cases hmem <;> rfl
  · change some (Char.ofNat _, rest) = some (c, rest)
    rw [hexValue_digitChar c.toNat hcode, Char.ofNat_toNat]
  · exact unescape?_plain hquote hbackslash rest

theorem unescape?_quote (rest : List Char) : unescape? ('"' :: rest) = none := rfl

theorem flatMap_escaped_inj {s s' r r' : List Char}
    (h : s.flatMap escaped ++ '"' :: r = s'.flatMap escaped ++ '"' :: r') : s = s' ∧ r = r' := by
  induction s generalizing s' with
  | nil =>
    cases s' with
    | nil => exact ⟨rfl, List.tail_eq_of_cons_eq h⟩
    | cons c' s' =>
      have hread := congrArg unescape? h
      rw [List.flatMap_nil, List.nil_append, unescape?_quote, List.flatMap_cons, List.append_assoc,
        unescape?_escaped] at hread
      cases hread
  | cons c s ih =>
    have hread := congrArg unescape? h
    rw [List.flatMap_cons, List.append_assoc, unescape?_escaped] at hread
    cases s' with
    | nil =>
      rw [List.flatMap_nil, List.nil_append, unescape?_quote] at hread
      cases hread
    | cons c' s' =>
      rw [List.flatMap_cons, List.append_assoc, unescape?_escaped, Option.some.injEq, Prod.mk.injEq] at hread
      obtain ⟨rfl, hrest⟩ := hread
      obtain ⟨rfl, hr⟩ := ih hrest
      exact ⟨rfl, hr⟩

/-- A string can be told from its text and what follows. -/
theorem stringChars_append_inj {text text' : String} {r r' : List Char}
    (h : stringChars text ++ r = stringChars text' ++ r') : text = text' ∧ r = r' := by
  simp only [stringChars, List.cons_append, List.append_assoc, List.nil_append, List.cons.injEq, true_and] at h
  obtain ⟨htext, hr⟩ := flatMap_escaped_inj h
  exact ⟨String.toList_inj.mp htext, hr⟩

/-! ### Texts tell numbers apart -/

/-- A character that numerals are made of. -/
def isNumeral (c : Char) : Bool :=
  c.isDigit || ['-', '+', '.', 'e', 'E'].contains c

theorem isNumeral_of_isDigits {l : List Char} (h : Number.isDigits l = true) : ∀ c ∈ l, isNumeral c = true := by
  intro c hc
  rw [isNumeral, (isDigits_iff.mp h).2 c hc, Bool.true_or]

theorem IsFraction.isNumeral_of_mem {l : List Char} (h : IsFraction l) : ∀ c ∈ l, isNumeral c = true := by
  cases h with
  | none => simp
  | point hdigits => exact List.forall_mem_cons.mpr ⟨rfl, isNumeral_of_isDigits hdigits⟩

theorem IsExponent.isNumeral_of_mem {l : List Char} (h : IsExponent l) : ∀ c ∈ l, isNumeral c = true := by
  cases h with
  | none => simp
  | @mark c sign digits hc hsign hdigits =>
    have hmark : isNumeral c = true := by
      fin_cases hc <;> rfl
    have hsigns : ∀ c ∈ sign, isNumeral c = true := by
      fin_cases hsign <;> simp [Json.isNumeral]
    exact List.forall_mem_cons.mpr ⟨hmark, List.forall_mem_append.mpr ⟨hsigns, isNumeral_of_isDigits hdigits⟩⟩

theorem IsNumber.isNumeral_of_mem {l : List Char} (h : IsNumber l) : ∀ c ∈ l, isNumeral c = true := by
  obtain ⟨negative, hwhole, hfraction, hexponent⟩ := h
  have hminus : ∀ c ∈ minus negative, isNumeral c = true := by
    cases negative <;> simp [minus, Json.isNumeral]
  have hdigits := isNumeral_of_isDigits hwhole.isDigits
  simp only [List.forall_mem_append]
  exact ⟨⟨⟨hminus, hdigits⟩, hfraction.isNumeral_of_mem⟩, hexponent.isNumeral_of_mem⟩

/-- What may follow a value in a text: nothing, or a comma or closing bracket. -/
def Ended (r : List Char) : Prop :=
  ∀ c ∈ r.head?, c ∈ [',', ']', '\x7d']

theorem takeWhile_isNumeral {l r : List Char} (h : ∀ c ∈ l, isNumeral c = true) (hr : Ended r) :
    (l ++ r).takeWhile isNumeral = l := by
  rw [List.takeWhile_append_of_pos h]
  cases r with
  | nil => simp
  | cons c r =>
    have hc : isNumeral c = false := by
      have := hr c rfl
      simp only [List.mem_cons, List.not_mem_nil, or_false] at this
      rcases this with rfl | rfl | rfl <;> rfl
    rw [List.takeWhile_cons_of_neg (by simp [hc]), List.append_nil]

theorem numberChars_append_inj {n n' : Number} {r r' : List Char} (hn : n.isFinite = true) (hn' : n'.isFinite = true)
    (hr : Ended r) (hr' : Ended r') (h : numberChars n ++ r = numberChars n' ++ r') : n = n' ∧ r = r' := by
  have htext := congrArg (List.takeWhile isNumeral) h
  rw [takeWhile_isNumeral (isNumber_numberChars hn).isNumeral_of_mem hr,
    takeWhile_isNumeral (isNumber_numberChars hn').isNumeral_of_mem hr'] at htext
  rw [htext] at h
  exact ⟨numberChars_inj hn hn' htext, List.append_cancel_left h⟩

/-! ### Values without an infinity or a NaN -/

mutual

/-- The floating-point numbers at and below a JSON value. -/
def floats : Json → List Binary64
  | .number (.float x) => [x]
  | .array items => floatsOfItems items
  | .object fields => floatsOfFields fields
  | _ => []

/-- The floating-point numbers in the items of an array. -/
def floatsOfItems : List Json → List Binary64
  | [] => []
  | item :: items => item.floats ++ floatsOfItems items

/-- The floating-point numbers in the values of fields. -/
def floatsOfFields : List (String × Json) → List Binary64
  | [] => []
  | (_, value) :: fields => value.floats ++ floatsOfFields fields

end

/-- No floating-point number in it is infinite or a NaN. -/
def Finite (j : Json) : Prop :=
  ∀ x ∈ j.floats, x.isFinite = true

/-- The kinds of values that the first character tells apart. -/
inductive Kind where
  | null
  | bool
  | number
  | string
  | array
  | object
deriving DecidableEq

/-- The kind of a value. -/
def kind : Json → Kind
  | .null => .null
  | .bool _ => .bool
  | .number _ => .number
  | .string _ => .string
  | .array _ => .array
  | .object _ => .object

/-- The kind of a value by its first character. -/
def Kind.ofFirst? (c : Char) : Option Kind :=
  if c = '-' || c.isDigit then some .number
  else if c = 'n' then some .null
  else if c = 't' || c = 'f' then some .bool
  else if c = '"' then some .string
  else if c = '[' then some .array
  else if c = '\x7b' then some .object
  else none

theorem IsNumber.first {l : List Char} (h : IsNumber l) : ∃ c rest, l = c :: rest ∧ (c = '-' ∨ c.isDigit = true) := by
  obtain ⟨negative, hwhole, -, -⟩ := h
  obtain ⟨hne, hdigits⟩ := isDigits_iff.mp hwhole.isDigits
  cases negative with
  | true => exact ⟨'-', _, rfl, .inl rfl⟩
  | false =>
    obtain ⟨c, l, rfl⟩ := List.exists_cons_of_ne_nil hne
    exact ⟨c, _, rfl, .inr (hdigits c List.mem_cons_self)⟩

theorem Finite.number {n : Number} (h : (number n).Finite) : n.isFinite = true := by
  cases n with
  | int _ => rfl
  | float x => exact h x List.mem_cons_self

theorem first_chars {j : Json} (h : j.Finite) : ∃ c rest, j.chars = c :: rest ∧ Kind.ofFirst? c = some j.kind := by
  cases j with
  | null => exact ⟨'n', _, rfl, rfl⟩
  | bool b =>
    cases b with
    | true => exact ⟨'t', _, rfl, rfl⟩
    | false => exact ⟨'f', _, rfl, rfl⟩
  | number n =>
    obtain ⟨c, rest, hchars, hc⟩ := (isNumber_numberChars h.number).first
    exact ⟨c, rest, hchars, by simp [Kind.ofFirst?, hc, kind]⟩
  | string text => exact ⟨'"', _, rfl, rfl⟩
  | array items =>
    cases items with
    | nil => exact ⟨'[', _, rfl, rfl⟩
    | cons item items => exact ⟨'[', _, rfl, rfl⟩
  | object fields =>
    cases fields with
    | nil => exact ⟨'\x7b', _, rfl, rfl⟩
    | cons field fields => exact ⟨'\x7b', _, rfl, rfl⟩

theorem kind_eq {j j' : Json} {r r' : List Char} (hj : j.Finite) (hj' : j'.Finite)
    (h : j.chars ++ r = j'.chars ++ r') : j.kind = j'.kind := by
  obtain ⟨c, rest, hchars, hc⟩ := first_chars hj
  obtain ⟨c', rest', hchars', hc'⟩ := first_chars hj'
  rw [hchars, hchars', List.cons_append, List.cons_append] at h
  rw [(List.cons.inj h).1, hc'] at hc
  exact (Option.some.inj hc).symm

/-- No value starts with a bracket that closes. -/
theorem chars_ne_cons {j : Json} (hj : j.Finite) {c : Char} (hc : Kind.ofFirst? c = none) (r r' : List Char) :
    j.chars ++ r ≠ c :: r' := by
  obtain ⟨c', rest, hchars, hc'⟩ := first_chars hj
  rw [hchars]
  intro h
  rw [(List.cons.inj h).1, hc] at hc'
  cases hc'

theorem ended_charsOfItems (items : List Json) (r : List Char) : Ended (charsOfItems items ++ r) := by
  cases items <;> simp [Ended, charsOfItems]

theorem ended_charsOfFields (fields : List (String × Json)) (r : List Char) : Ended (charsOfFields fields ++ r) := by
  cases fields <;> simp [Ended, charsOfFields]

/-- The items of an array are finite, first and rest. -/
theorem Finite.cons_items {item : Json} {items : List Json} (h : (array (item :: items)).Finite) :
    item.Finite ∧ (array items).Finite :=
  List.forall_mem_append.mp h

theorem Finite.cons_fields {name : String} {value : Json} {fields : List (String × Json)}
    (h : (object ((name, value) :: fields)).Finite) : value.Finite ∧ (object fields).Finite :=
  List.forall_mem_append.mp h

/-- The text of an array is that of its items, up to the first character. -/
theorem charsOfItems_of_array {items items' : List Json} {r r' : List Char} (hj : (array items).Finite)
    (hj' : (array items').Finite) (h : (array items).chars ++ r = (array items').chars ++ r') :
    charsOfItems items ++ r = charsOfItems items' ++ r' := by
  cases items with
  | nil =>
    cases items' with
    | nil => exact (List.cons.inj h).2
    | cons item' items' =>
      simp only [chars, List.cons_append, List.append_assoc] at h
      exact absurd (List.cons.inj h).2.symm (chars_ne_cons hj'.cons_items.1 rfl _ _)
  | cons item items =>
    cases items' with
    | nil =>
      simp only [chars, List.cons_append, List.append_assoc] at h
      exact absurd (List.cons.inj h).2 (chars_ne_cons hj.cons_items.1 rfl _ _)
    | cons item' items' => exact congrArg (',' :: ·) (List.cons.inj h).2

/-- The text of an object is that of its fields, up to the first character. -/
theorem charsOfFields_of_object {fields fields' : List (String × Json)} {r r' : List Char}
    (h : (object fields).chars ++ r = (object fields').chars ++ r') :
    charsOfFields fields ++ r = charsOfFields fields' ++ r' := by
  cases fields with
  | nil =>
    cases fields' with
    | nil => exact (List.cons.inj h).2
    | cons field' fields' => exact absurd (List.cons.inj (List.cons.inj h).2).1 (by decide)
  | cons field fields =>
    cases fields' with
    | nil => exact absurd (List.cons.inj (List.cons.inj h).2).1 (by decide)
    | cons field' fields' => exact congrArg (',' :: ·) (List.cons.inj h).2

mutual

/-- A value can be told from its text and what follows. -/
theorem chars_append_inj : ∀ (j : Json), j.Finite → ∀ {j' : Json}, j'.Finite → ∀ {r r' : List Char}, Ended r →
    Ended r' → j.chars ++ r = j'.chars ++ r' → j = j' ∧ r = r'
  | .null, hj, j', hj', r, r', _, _, h => by
    -- Here and below, a value of another kind would begin with another character.
    cases j' with
    | null => exact ⟨rfl, List.append_cancel_left h⟩
    | _ => cases kind_eq hj hj' h
  | .bool b, hj, j', hj', r, r', _, _, h => by
    cases j' with
    | bool b' =>
      cases b <;> cases b'
      · exact ⟨rfl, List.append_cancel_left h⟩
      · exact absurd (List.cons.inj h).1 (by decide)
      · exact absurd (List.cons.inj h).1 (by decide)
      · exact ⟨rfl, List.append_cancel_left h⟩
    | _ => cases kind_eq hj hj' h
  | .number n, hj, j', hj', r, r', hr, hr', h => by
    cases j' with
    | number n' =>
      obtain ⟨rfl, hrest⟩ := numberChars_append_inj hj.number hj'.number hr hr' h
      exact ⟨rfl, hrest⟩
    | _ => cases kind_eq hj hj' h
  | .string text, hj, j', hj', r, r', _, _, h => by
    cases j' with
    | string text' =>
      obtain ⟨rfl, hrest⟩ := stringChars_append_inj h
      exact ⟨rfl, hrest⟩
    | _ => cases kind_eq hj hj' h
  | .array items, hj, j', hj', r, r', _, _, h => by
    cases j' with
    | array items' =>
      obtain ⟨rfl, hrest⟩ := charsOfItems_append_inj items hj hj' (charsOfItems_of_array hj hj' h)
      exact ⟨rfl, hrest⟩
    | _ => cases kind_eq hj hj' h
  | .object fields, hj, j', hj', r, r', _, _, h => by
    cases j' with
    | object fields' =>
      obtain ⟨rfl, hrest⟩ := charsOfFields_append_inj fields hj hj' (charsOfFields_of_object h)
      exact ⟨rfl, hrest⟩
    | _ => cases kind_eq hj hj' h
termination_by structural j => j

theorem charsOfItems_append_inj : ∀ (items : List Json), (array items).Finite → ∀ {items' : List Json},
    (array items').Finite → ∀ {r r' : List Char}, charsOfItems items ++ r = charsOfItems items' ++ r' →
      items = items' ∧ r = r'
  | [], _, [], _, _, _, h => ⟨rfl, List.append_cancel_left h⟩
  | [], _, _ :: _, _, _, _, h => absurd (List.cons.inj h).1 (by decide)
  | _ :: _, _, [], _, _, _, h => absurd (List.cons.inj h).1 (by decide)
  | item :: items, hj, item' :: items', hj', r, r', h => by
    rw [charsOfItems, charsOfItems, List.cons_append, List.cons_append, List.append_assoc, List.append_assoc] at h
    obtain ⟨rfl, hitems⟩ := chars_append_inj item hj.cons_items.1 hj'.cons_items.1 (ended_charsOfItems items r)
      (ended_charsOfItems items' r') (List.cons.inj h).2
    obtain ⟨rfl, hrest⟩ := charsOfItems_append_inj items hj.cons_items.2 hj'.cons_items.2 hitems
    exact ⟨rfl, hrest⟩
termination_by structural items => items

theorem charsOfFields_append_inj : ∀ (fields : List (String × Json)), (object fields).Finite →
    ∀ {fields' : List (String × Json)}, (object fields').Finite → ∀ {r r' : List Char},
      charsOfFields fields ++ r = charsOfFields fields' ++ r' → fields = fields' ∧ r = r'
  | [], _, [], _, _, _, h => ⟨rfl, List.append_cancel_left h⟩
  | [], _, _ :: _, _, _, _, h => absurd (List.cons.inj h).1 (by decide)
  | _ :: _, _, [], _, _, _, h => absurd (List.cons.inj h).1 (by decide)
  | (name, value) :: fields, hj, (name', value') :: fields', hj', r, r', h => by
    simp only [charsOfFields, List.cons_append, List.append_assoc] at h
    obtain ⟨rfl, hafter⟩ := stringChars_append_inj (List.cons.inj h).2
    obtain ⟨rfl, hfields⟩ := chars_append_inj value hj.cons_fields.1 hj'.cons_fields.1
      (ended_charsOfFields fields r) (ended_charsOfFields fields' r') (List.cons.inj hafter).2
    obtain ⟨rfl, hrest⟩ := charsOfFields_append_inj fields hj.cons_fields.2 hj'.cons_fields.2 hfields
    exact ⟨rfl, hrest⟩
termination_by structural fields => fields

end

/-- Different values without an infinity or a NaN have different texts. -/
theorem render_inj {j j' : Json} (hj : j.Finite) (hj' : j'.Finite) (h : j.render = j'.render) : j = j' := by
  have hchars := congrArg String.toList h
  rw [render, render, String.toList_ofList, String.toList_ofList] at hchars
  have hend : Ended [] := by simp [Ended]
  exact (chars_append_inj j hj hj' hend hend (congrArg (· ++ []) hchars)).1

end Flowline.Json
