import Flowline.Json.Printer
import Flowline.Proofs.Rounding

/-! The numerals of JSON. A number is written as a numeral of the grammar, and the readers of literals give back what
    was written: a whole number itself, and for a floating-point number the decimal that was chosen for it. So
    different finite numbers have different numerals, and none is the numeral of a whole and of a floating-point
    number. -/

namespace Flowline

/-- The magnitude of a decimal. -/
def Decimal.magnitude (d : Decimal) : ℚ :=
  d.coefficient * 10 ^ d.exponent

/-- Neither infinite nor a NaN. -/
def Number.isFinite : Number → Bool
  | .int _ => true
  | .float x => x.isFinite

namespace Json
open Number

/-! ### The grammar -/

/-- The whole part of a numeral: no zero stands before another digit. -/
inductive IsWhole : List Char → Prop
  | zero : IsWhole ['0']
  | digits {c : Char} {l : List Char} : isDigits (c :: l) = true → c ≠ '0' → IsWhole (c :: l)

/-- The fraction of a numeral, which may be absent. -/
inductive IsFraction : List Char → Prop
  | none : IsFraction []
  | point {l : List Char} : isDigits l = true → IsFraction ('.' :: l)

/-- The exponent of a numeral, which may be absent. -/
inductive IsExponent : List Char → Prop
  | none : IsExponent []
  | mark {c : Char} {sign l : List Char} : c ∈ ['e', 'E'] → sign ∈ [[], ['+'], ['-']] → isDigits l = true →
    IsExponent (c :: (sign ++ l))

/-- A minus, or nothing. -/
def minus (negative : Bool) : List Char :=
  if negative then ['-'] else []

/-- A numeral. -/
inductive IsNumber : List Char → Prop
  | mk (negative : Bool) {whole fraction exponent : List Char} : IsWhole whole → IsFraction fraction →
    IsExponent exponent → IsNumber (minus negative ++ whole ++ fraction ++ exponent)

/-! ### Digits -/

theorem isDigits_iff {l : List Char} : isDigits l = true ↔ l ≠ [] ∧ ∀ c ∈ l, c.isDigit = true := by
  cases l <;> simp [isDigits]

theorem isDigits_toDigits (n : ℕ) : isDigits (Nat.toDigits 10 n) = true :=
  isDigits_iff.mpr ⟨Nat.toDigits_ne_nil, fun _ hc => Nat.isDigit_of_mem_toDigits (by norm_num) (by norm_num) hc⟩

theorem isWhole_toDigits (n : ℕ) : IsWhole (Nat.toDigits 10 n) := by
  rcases Nat.eq_zero_or_pos n with rfl | hpos
  · rw [Nat.toDigits_zero]
    exact .zero
  -- The digits of a number below ten are one digit, and those of any other begin with the digits of its tenth.
  have hlead : ∃ c l, Nat.toDigits 10 n = c :: l ∧ c ≠ '0' := by
    induction n using Nat.strong_induction_on with
    | _ n ih =>
      rcases Nat.lt_or_ge n 10 with hlt | hge
      · refine ⟨n.digitChar, [], Nat.toDigits_of_lt_base hlt, ?_⟩
        rw [ne_eq, Nat.digitChar_eq_zero]
        exact hpos.ne'
      · obtain ⟨c, l, htenth, hc⟩ := ih (n / 10) (by omega) (by omega)
        refine ⟨c, l ++ [(n % 10).digitChar], ?_, hc⟩
        rw [Nat.toDigits_of_base_le (by norm_num) hge, htenth, List.cons_append]
  obtain ⟨c, l, heq, hc⟩ := hlead
  rw [heq]
  exact .digits (heq ▸ isDigits_toDigits n) hc

theorem IsWhole.isDigits {l : List Char} (h : IsWhole l) : isDigits l = true := by
  cases h with
  | zero => rfl
  | digits h _ => exact h

theorem ofDigits_toDigits (n : ℕ) : Decimal.ofDigits (Nat.toDigits 10 n) = n :=
  Nat.ofDigitChars_ten_toDigits

theorem ofDigits_zeros_append (n : ℕ) (l : List Char) :
    Decimal.ofDigits (List.replicate n '0' ++ l) = Decimal.ofDigits l := by
  change Nat.ofDigitChars 10 _ 0 = Nat.ofDigitChars 10 _ 0
  rw [Nat.ofDigitChars_append, Nat.ofDigitChars_replicate_zero, mul_zero]

theorem ofDigits_append_zeros (n : ℕ) (l : List Char) :
    Decimal.ofDigits (l ++ List.replicate n '0') = Decimal.ofDigits l * 10 ^ n := by
  change Nat.ofDigitChars 10 _ 0 = Nat.ofDigitChars 10 _ 0 * _
  rw [Nat.ofDigitChars_append, Nat.ofDigitChars_replicate_zero, mul_comm]

/-! ### Whole numbers -/

/-- A sign is read back before a digit. -/
theorem sign_minus (negative : Bool) {digits : List Char} (h : isDigits digits = true) (rest : List Char) :
    sign (minus negative ++ (digits ++ rest)) = (negative, digits ++ rest) := by
  cases negative with
  | true => rfl
  | false =>
    obtain ⟨hne, hdigits⟩ := isDigits_iff.mp h
    obtain ⟨c, l, rfl⟩ := List.exists_cons_of_ne_nil hne
    have hc := hdigits c List.mem_cons_self
    change sign (c :: (l ++ rest)) = (false, c :: (l ++ rest))
    unfold sign
    split
    · next heq => exact absurd ((List.cons.inj heq).1 ▸ hc) (by decide)
    · next heq => exact absurd ((List.cons.inj heq).1 ▸ hc) (by decide)
    · rfl

theorem readSigned?_minus (negative : Bool) (n : ℕ) :
    readSigned? (minus negative ++ Nat.toDigits 10 n) = some (if negative then -(n : ℤ) else n) := by
  have hsign := sign_minus negative (isDigits_toDigits n) []
  rw [List.append_nil] at hsign
  simp [readSigned?, hsign, isDigits_toDigits, ofDigits_toDigits]

theorem intChars_eq (n : ℤ) : intChars n = minus (decide (n < 0)) ++ Nat.toDigits 10 n.natAbs := by
  unfold intChars minus
  by_cases h : n < 0 <;> simp [h]

/-- A whole number is read back from its numeral. -/
theorem readSigned?_intChars (n : ℤ) : readSigned? (intChars n) = some n := by
  rw [intChars_eq, readSigned?_minus]
  congr 1
  simp only [decide_eq_true_eq]
  omega

theorem isNumber_intChars (n : ℤ) : IsNumber (intChars n) := by
  rw [intChars_eq]
  simpa using IsNumber.mk (decide (n < 0)) (isWhole_toDigits n.natAbs) .none .none

/-! ### Floating-point numbers -/

/-- The parts of the numeral of a floating-point number: the digits before the point, those after it, and the
    exponent. -/
structure Numeral where
  whole : List Char
  fraction : List Char
  exponent : Option ℤ

namespace Numeral

/-- The point and the digits after it. -/
def fractionChars (n : Numeral) : List Char :=
  if n.fraction.isEmpty then [] else '.' :: n.fraction

/-- The exponent with its mark and sign. -/
def exponentChars (n : Numeral) : List Char :=
  match n.exponent with
  | none => []
  | some k => 'e' :: (if k < 0 then '-' else '+') :: Nat.toDigits 10 k.natAbs

/-- The text of a numeral. -/
def chars (n : Numeral) : List Char :=
  n.whole ++ n.fractionChars ++ n.exponentChars

/-- The decimal that a numeral stands for. -/
def decimal (n : Numeral) (negative : Bool) : Decimal :=
  ⟨negative, Decimal.ofDigits (n.whole ++ n.fraction), n.exponent.getD 0 - n.fraction.length⟩

/-- The parts are in order, and the numeral is not that of a whole number. -/
structure WellFormed (n : Numeral) : Prop where
  whole : IsWhole n.whole
  fraction : ∀ c ∈ n.fraction, c.isDigit = true
  real : n.fraction ≠ [] ∨ n.exponent ≠ none

variable {n : Numeral}

theorem isFraction (h : n.WellFormed) : IsFraction n.fractionChars := by
  unfold fractionChars
  split
  · exact .none
  · next hne => exact .point (isDigits_iff.mpr ⟨by simpa using hne, h.fraction⟩)

theorem isExponent (n : Numeral) : IsExponent n.exponentChars := by
  unfold exponentChars
  split
  · exact .none
  · next k _ =>
    have hsign : [if k < 0 then '-' else '+'] ∈ [[], ['+'], ['-']] := by split <;> simp
    exact .mark List.mem_cons_self hsign (isDigits_toDigits k.natAbs)

theorem isNumber (h : n.WellFormed) (negative : Bool) : IsNumber (minus negative ++ n.chars) := by
  have := IsNumber.mk negative h.whole (isFraction h) n.isExponent
  simpa [chars] using this

theorem readExponent?_chars (n : Numeral) : readExponent? n.exponentChars = some (n.exponent.getD 0) := by
  unfold exponentChars
  split
  · next hnone => simp [readExponent?, hnone]
  · next k hsome =>
    rw [hsome, Option.getD_some]
    change readSigned? ((if k < 0 then '-' else '+') :: Nat.toDigits 10 k.natAbs) = some k
    split
    · next hneg =>
      refine (readSigned?_minus true k.natAbs).trans (congrArg some ?_)
      simp only [if_true]
      omega
    · next hpos =>
      have hread : readSigned? ('+' :: Nat.toDigits 10 k.natAbs) = some (k.natAbs : ℤ) := by
        simp [readSigned?, sign, isDigits_toDigits, ofDigits_toDigits]
      rw [hread]
      congr 1
      omega

theorem exponentChars_cases (n : Numeral) : n.exponentChars = [] ∨ ∃ l, n.exponentChars = 'e' :: l := by
  unfold exponentChars
  split
  · exact .inl rfl
  · exact .inr ⟨_, rfl⟩

/-- The decimal is read back from the numeral. -/
theorem readDecimal?_chars (h : n.WellFormed) (negative : Bool) :
    readDecimal? negative n.chars = some (n.decimal negative) := by
  obtain ⟨hne, hwhole⟩ := isDigits_iff.mp h.whole.isDigits
  have hexponent := n.readExponent?_chars
  unfold readDecimal? chars decimal
  rw [List.append_assoc, List.takeWhile_append_of_pos hwhole, List.dropWhile_append_of_pos hwhole]
  by_cases hfraction : n.fraction = []
  · rcases n.exponentChars_cases with hchars | ⟨l, hchars⟩ <;> rw [hchars] at hexponent ⊢ <;>
      simp [fractionChars, hfraction, hne, hexponent]
  · have hnondigit : n.exponentChars.takeWhile Char.isDigit = [] ∧
        n.exponentChars.dropWhile Char.isDigit = n.exponentChars := by
      rcases n.exponentChars_cases with hchars | ⟨l, hchars⟩ <;> rw [hchars] <;> exact ⟨rfl, rfl⟩
    simp [fractionChars, hfraction, hne, hexponent, hnondigit, List.takeWhile_append_of_pos h.fraction,
      List.dropWhile_append_of_pos h.fraction]

theorem isDigits_chars (h : n.WellFormed) : Number.isDigits n.chars = false := by
  rw [Bool.eq_false_iff, ne_eq, isDigits_iff]
  rintro ⟨-, hdigits⟩
  rcases h.real with hfraction | hexponent
  · have hpoint : '.' ∈ n.chars := by simp [chars, fractionChars, hfraction]
    exact absurd (hdigits _ hpoint) (by decide)
  · obtain ⟨k, hk⟩ := Option.ne_none_iff_exists'.mp hexponent
    have hmark : 'e' ∈ n.chars := by simp [chars, exponentChars, hk]
    exact absurd (hdigits _ hmark) (by decide)

end Numeral

/-- The parts of a positional numeral. -/
def positionalParts (digits : List Char) (order : ℤ) : Numeral :=
  if order < 0 then ⟨['0'], List.replicate (-order - 1).toNat '0' ++ digits, none⟩
  else
    let width := order.toNat + 1
    if digits.length ≤ width then ⟨digits ++ List.replicate (width - digits.length) '0', ['0'], none⟩
    else ⟨digits.take width, digits.drop width, none⟩

/-- The parts of a scientific numeral. -/
def scientificParts (digits : List Char) (order : ℤ) : Numeral :=
  ⟨digits.take 1, digits.drop 1, some order⟩

section Parts
variable {digits : List Char}

theorem positional_eq (h : digits ≠ []) (order : ℤ) :
    positional digits order = (positionalParts digits order).chars := by
  unfold positional positionalParts
  split
  · simp [Numeral.chars, Numeral.fractionChars, Numeral.exponentChars, h]
  by_cases hshort : digits.length ≤ order.toNat + 1
  · simp [Numeral.chars, Numeral.fractionChars, Numeral.exponentChars, hshort, List.take_of_length_le hshort]
  · have hnone : order.toNat + 1 - digits.length = 0 := by omega
    simp [Numeral.chars, Numeral.fractionChars, Numeral.exponentChars, hshort, hnone]

theorem scientific_eq (digits : List Char) (order : ℤ) :
    scientific digits order = (scientificParts digits order).chars := by
  unfold scientific scientificParts Numeral.chars Numeral.fractionChars Numeral.exponentChars
  simp only [List.isEmpty_iff, List.drop_eq_nil_iff]

theorem digit_of_isWhole (h : IsWhole digits) {c : Char} (hc : c ∈ digits) : c.isDigit = true :=
  (isDigits_iff.mp h.isDigits).2 c hc

/-- Zeros may be added behind, and digits taken off there, except where the only digit is a zero. -/
theorem IsWhole.take_append (h : IsWhole digits) (width zeros : ℕ) (hzero : digits = ['0'] → zeros = 0) :
    IsWhole (digits.take (width + 1) ++ List.replicate zeros '0') := by
  cases h with
  | zero =>
    rw [hzero rfl]
    simpa using IsWhole.zero
  | @digits c l hdigits hc =>
    refine .digits (isDigits_iff.mpr ⟨by simp, fun d hd => ?_⟩) hc
    replace hd : d ∈ (c :: l).take (width + 1) ++ List.replicate zeros '0' := hd
    rcases List.mem_append.mp hd with hd | hd
    · exact (isDigits_iff.mp hdigits).2 d (List.mem_of_mem_take hd)
    · rw [List.eq_of_mem_replicate hd]
      rfl

theorem wellFormed_positionalParts (h : IsWhole digits) {order : ℤ} (hzero : digits = ['0'] → order = 0) :
    (positionalParts digits order).WellFormed := by
  have hne := (isDigits_iff.mp h.isDigits).1
  unfold positionalParts
  split
  · refine ⟨.zero, fun c hc => ?_, .inl (by simp [hne])⟩
    rcases List.mem_append.mp hc with hc | hc
    · rw [List.eq_of_mem_replicate hc]
      rfl
    · exact digit_of_isWhole h hc
  · simp only
    split
    · next hshort =>
      refine ⟨?_, by simp, .inl (by simp)⟩
      rw [← List.take_of_length_le hshort]
      refine h.take_append _ _ fun hdigits => ?_
      simp [hzero hdigits, hdigits]
    · next hlong =>
      refine ⟨?_, fun c hc => digit_of_isWhole h (List.mem_of_mem_drop hc), .inl (by simpa using hlong)⟩
      simpa using h.take_append order.toNat 0 fun _ => rfl

theorem wellFormed_scientificParts (h : IsWhole digits) (order : ℤ) : (scientificParts digits order).WellFormed := by
  refine ⟨?_, fun c hc => digit_of_isWhole h (List.mem_of_mem_drop hc), .inr (by simp [scientificParts])⟩
  simpa [scientificParts] using h.take_append 0 0 fun _ => rfl

theorem magnitude_positionalParts (digits : List Char) (order : ℤ) (negative : Bool) :
    ((positionalParts digits order).decimal negative).magnitude =
      Decimal.ofDigits digits * 10 ^ (order + 1 - digits.length) := by
  unfold positionalParts Numeral.decimal Decimal.magnitude
  split
  · next hneg =>
    have hvalue : Decimal.ofDigits (['0'] ++ (List.replicate (-order - 1).toNat '0' ++ digits)) =
        Decimal.ofDigits digits := ofDigits_zeros_append ((-order - 1).toNat + 1) digits
    simp only [hvalue]
    congr 2
    simp
    omega
  by_cases hshort : digits.length ≤ order.toNat + 1
  · simp only [hshort, if_true]
    have hvalue : digits ++ List.replicate (order.toNat + 1 - digits.length) '0' ++ ['0'] =
        digits ++ List.replicate (order.toNat + 1 - digits.length + 1) '0' := by
      rw [List.replicate_succ', List.append_assoc]
    rw [hvalue, ofDigits_append_zeros, Nat.cast_mul, Nat.cast_pow, mul_assoc, Nat.cast_ofNat, ← zpow_natCast,
      ← zpow_add₀ (by norm_num)]
    congr 2
    simp
    omega
  · simp only [hshort, if_false, List.take_append_drop]
    congr 2
    simp
    omega

theorem magnitude_scientificParts (h : digits ≠ []) (order : ℤ) (negative : Bool) :
    ((scientificParts digits order).decimal negative).magnitude =
      Decimal.ofDigits digits * 10 ^ (order + 1 - digits.length) := by
  have hlength := List.length_pos_of_ne_nil h
  unfold scientificParts Numeral.decimal Decimal.magnitude
  simp only [List.take_append_drop]
  congr 2
  simp
  omega

end Parts

/-- The parts of the numeral of `c * 10 ^ e`. -/
def decimalParts (c : ℕ) (e : ℤ) : Numeral :=
  let digits := Nat.toDigits 10 c
  let order := e + digits.length - 1
  if numeralStyle.least ≤ order && order ≤ numeralStyle.greatest then positionalParts digits order
  else scientificParts digits order

theorem decimalChars_eq (c : ℕ) (e : ℤ) : decimalChars c e = (decimalParts c e).chars := by
  unfold decimalChars decimalParts
  simp only [positional_eq Nat.toDigits_ne_nil, scientific_eq]
  split <;> rfl

theorem wellFormed_decimalParts {c : ℕ} {e : ℤ} (h : c = 0 → e = 0) : (decimalParts c e).WellFormed := by
  have hwhole := isWhole_toDigits c
  unfold decimalParts
  simp only
  split
  · refine wellFormed_positionalParts hwhole fun hdigits => ?_
    have hc : c = 0 := by
      rw [← ofDigits_toDigits c, hdigits]
      rfl
    simp [hdigits, h hc]
  · exact wellFormed_scientificParts hwhole _

theorem magnitude_decimalParts (c : ℕ) (e : ℤ) (negative : Bool) :
    ((decimalParts c e).decimal negative).magnitude = c * 10 ^ e := by
  have horder : e + (Nat.toDigits 10 c).length - 1 + 1 - (Nat.toDigits 10 c).length = e := by ring
  unfold decimalParts
  simp only
  split
  · rw [magnitude_positionalParts, ofDigits_toDigits, horder]
  · rw [magnitude_scientificParts Nat.toDigits_ne_nil, ofDigits_toDigits, horder]

/-- The parts of the numeral of a finite number. -/
def parts (x : Binary64) : Numeral :=
  decimalParts x.decimal.1 x.decimal.2

theorem wellFormed_parts (x : Binary64) : (parts x).WellFormed :=
  wellFormed_decimalParts Binary64.decimal_eq_zero

theorem floatChars_eq {x : Binary64} (h : x.isFinite = true) :
    floatChars x = minus x.negative ++ (parts x).chars := by
  have hmagnitude : (if x.significand = 0 then positional ['0'] 0 else decimalChars x.shortest.1 x.shortest.2) =
      (parts x).chars := by
    rw [parts, ← decimalChars_eq, Binary64.decimal]
    split
    · rfl
    · rfl
  unfold floatChars minus
  rw [if_pos h, hmagnitude]
  cases x.negative <;> rfl

theorem isNumber_floatChars {x : Binary64} (h : x.isFinite = true) : IsNumber (floatChars x) := by
  rw [floatChars_eq h]
  exact Numeral.isNumber (wellFormed_parts x) x.negative

/-- The sign is read back from the numeral, and then the rest is what is left. -/
theorem sign_floatChars {x : Binary64} (h : x.isFinite = true) :
    sign (floatChars x) = (x.negative, (parts x).chars) := by
  rw [floatChars_eq h, Numeral.chars, List.append_assoc]
  exact sign_minus x.negative (wellFormed_parts x).whole.isDigits _

/-- Different finite numbers have different numerals. -/
theorem floatChars_inj {x y : Binary64} (hx : x.isFinite = true) (hy : y.isFinite = true)
    (h : floatChars x = floatChars y) : x = y := by
  have hsplit := congrArg sign h
  rw [sign_floatChars hx, sign_floatChars hy, Prod.mk.injEq] at hsplit
  obtain ⟨hsign, hchars⟩ := hsplit
  have hread := congrArg (readDecimal? false) hchars
  rw [Numeral.readDecimal?_chars (wellFormed_parts x), Numeral.readDecimal?_chars (wellFormed_parts y)] at hread
  have hmagnitude := congrArg Decimal.magnitude (Option.some.inj hread)
  unfold parts at hmagnitude
  rw [magnitude_decimalParts, magnitude_decimalParts] at hmagnitude
  exact Binary64.eq_of_decimal hmagnitude hsign

/-- The numeral of a floating-point number is not that of a whole number. -/
theorem readSigned?_floatChars {x : Binary64} (h : x.isFinite = true) : readSigned? (floatChars x) = none := by
  simp [readSigned?, sign_floatChars h, Numeral.isDigits_chars (wellFormed_parts x)]

/-! ### Numbers -/

theorem isNumber_numberChars {n : Number} (h : n.isFinite = true) : IsNumber (numberChars n) := by
  cases n with
  | int n => exact isNumber_intChars n
  | float x => exact isNumber_floatChars h

theorem numberChars_inj {a b : Number} (ha : a.isFinite = true) (hb : b.isFinite = true)
    (h : numberChars a = numberChars b) : a = b := by
  have hread := congrArg readSigned? h
  cases a with
  | int n =>
    cases b with
    | int m =>
      rw [numberChars, numberChars, readSigned?_intChars, readSigned?_intChars] at hread
      rw [Option.some.inj hread]
    | float y =>
      rw [numberChars, numberChars, readSigned?_intChars, readSigned?_floatChars hb] at hread
      cases hread
  | float x =>
    cases b with
    | int m =>
      rw [numberChars, numberChars, readSigned?_intChars, readSigned?_floatChars ha] at hread
      cases hread
    | float y => rw [floatChars_inj ha hb h]

end Json

end Flowline
