import Flowline.Proofs.Numerals
import Flowline.Tree.Shape
import Flowline.Value.Reader

/-! Whole numbers in a script. A sign and any number of digits spell a whole number, whose value is given by the
    places of its digits. It is read as exactly that number where 64 bits hold it, both limits included, and as a
    floating-point number beyond them. -/

namespace Flowline

namespace Number

/-- The whole number that a row of digits spells after a sign, by the places of the digits. -/
def spelled (negative : Bool) (digits : List Char) : ℤ :=
  let magnitude : ℕ := Nat.ofDigits 10 (digits.map fun c => c.toNat - '0'.toNat).reverse
  if negative then -magnitude else magnitude

/-- The whole numbers of 64 bits. -/
def Fits (v : ℤ) : Prop :=
  -2 ^ 63 ≤ v ∧ v ≤ 2 ^ 63 - 1

instance (v : ℤ) : Decidable (Fits v) :=
  inferInstanceAs (Decidable (_ ∧ _))

theorem inRange_iff {v : ℤ} : inRange v = true ↔ Fits v := by
  simp only [inRange, Fits, Bool.and_eq_true, decide_eq_true_eq]
  omega

/-! ### The value of a row of digits -/

/-- Reading digits from the left gives each its place. -/
theorem ofDigits_eq_places (digits : List Char) :
    Decimal.ofDigits digits = Nat.ofDigits 10 (digits.map fun c => c.toNat - '0'.toNat).reverse := by
  rw [Nat.ofDigits_eq_foldr, List.foldr_reverse, List.foldl_map, Decimal.ofDigits]
  simp only [Nat.cast_id, add_comm]

theorem spelled_eq (negative : Bool) (digits : List Char) :
    spelled negative digits = if negative then -(Decimal.ofDigits digits : ℤ) else Decimal.ofDigits digits := by
  rw [spelled, ofDigits_eq_places]

theorem natAbs_spelled (negative : Bool) (digits : List Char) :
    (spelled negative digits).natAbs = Decimal.ofDigits digits := by
  rw [spelled_eq]
  split <;> simp

/-- Only zero has no sign, and zero fits. -/
theorem negative_of_not_fits {negative : Bool} {digits : List Char} (h : ¬Fits (spelled negative digits)) :
    decide (spelled negative digits < 0) = negative := by
  rw [spelled_eq] at h ⊢
  unfold Fits at h
  cases negative with
  | false => simp
  | true =>
    simp only [if_true] at h ⊢
    exact decide_eq_true (by omega)

/-! ### Reading -/

theorem toLower_of_isDigit {c : Char} (h : c.isDigit = true) : c.toLower = c := by
  simp only [Char.isDigit, Bool.and_eq_true, decide_eq_true_eq] at h
  unfold Char.toLower
  rw [dif_neg]
  rintro ⟨hupper, -⟩
  exact absurd (UInt32.le_trans hupper h.2) (by decide)

/-- Digits spell neither an infinity nor the NaN. -/
theorem lower_digits_notMem {digits : List Char} (h : isDigits digits = true) :
    String.ofList (digits.map Char.toLower) ∉ ["inf", "infinity", "nan"] := by
  obtain ⟨hne, hall⟩ := Json.isDigits_iff.mp h
  obtain ⟨c, rest, rfl⟩ := List.exists_cons_of_ne_nil hne
  have hc := hall c List.mem_cons_self
  -- The first character of each word is a letter.
  have hletter : ∀ word ∈ ["inf", "infinity", "nan"], (word.toList.head?.map Char.isDigit) = some false := by decide
  intro hmem
  have hfirst := hletter _ hmem
  rw [String.toList_ofList, List.map_cons, List.head?_cons, Option.map_some, toLower_of_isDigit hc, hc] at hfirst
  cases hfirst

section Reading

variable {sign digits : List Char} (hsign : sign ∈ [[], ['+'], ['-']]) (hdigits : isDigits digits = true)

include hsign hdigits

theorem sign_append : Number.sign (sign ++ digits) = (decide (sign = ['-']), digits) := by
  simp only [List.mem_cons, List.not_mem_nil, or_false] at hsign
  rcases hsign with rfl | rfl | rfl
  · simpa [Json.minus] using Json.sign_minus false hdigits []
  · rfl
  · rfl

theorem readInt?_append :
    readInt? (sign ++ digits) =
      if Fits (spelled (decide (sign = ['-'])) digits) then some (spelled (decide (sign = ['-'])) digits)
      else none := by
  have hsigned : readSigned? (sign ++ digits) = some (spelled (decide (sign = ['-'])) digits) := by
    simp only [readSigned?, sign_append hsign hdigits, hdigits, if_true, spelled_eq]
  rw [readInt?, hsigned, Option.filter_some]
  simp only [inRange_iff]

theorem readFloat?_append :
    readFloat? (sign ++ digits) =
      some (Decimal.toBinary64 ⟨decide (sign = ['-']), Decimal.ofDigits digits, 0⟩) := by
  have hall := (Json.isDigits_iff.mp hdigits).2
  have hwords := lower_digits_notMem hdigits
  have hwhole : digits.takeWhile Char.isDigit = digits := List.takeWhile_eq_self_iff.mpr hall
  have hrest : digits.dropWhile Char.isDigit = [] := List.dropWhile_eq_nil_iff.mpr hall
  have hdecimal : ∀ negative, readDecimal? negative digits = some ⟨negative, Decimal.ofDigits digits, 0⟩ := by
    intro negative
    have hempty : digits.isEmpty = false := by simpa using (Json.isDigits_iff.mp hdigits).1
    simp [readDecimal?, hwhole, hrest, hempty, readExponent?]
  simp only [List.mem_cons, List.not_mem_nil, or_false, not_or] at hwords
  simp [readFloat?, sign_append hsign hdigits, hwords, hdecimal]

/-- A whole number is read as it is where 64 bits hold it, and else as a floating-point number. -/
theorem read?_append {v : ℤ} (hv : v = spelled (decide (sign = ['-'])) digits) :
    read? (sign ++ digits) =
      some (if Fits v then .int v else .float (Decimal.toBinary64 ⟨decide (v < 0), v.natAbs, 0⟩)) := by
  subst hv
  rw [read?, readInt?_append hsign hdigits]
  by_cases h : Fits (spelled (decide (sign = ['-'])) digits)
  · simp only [if_pos h]
  · simp only [if_neg h, readFloat?_append hsign hdigits, Option.map_some, natAbs_spelled, negative_of_not_fits h]

end Reading

end Number

/-! ### Number nodes -/

theorem Tree.readNumber_whole {t : Tree} {token : Token} {sign digits : List Char} {v : ℤ}
    (ht : t.tokenAt? 0 = some token) (hkind : token.kind ≠ "FLOAT") (htext : token.value.toList = sign ++ digits)
    (hsign : sign ∈ [[], ['+'], ['-']]) (hdigits : Number.isDigits digits = true)
    (hv : v = Number.spelled (decide (sign = ['-'])) digits) :
    t.readNumber = .ok (.number (if Number.Fits v then .int v
      else .float (Decimal.toBinary64 ⟨decide (v < 0), v.natAbs, 0⟩))) := by
  have htoken : (liftM (t.tokenAt 0) : Except Malformed Token) = .ok token := by
    rw [tokenAt, ht]
    rfl
  have hnumber := Number.read?_append hsign hdigits hv
  rw [← htext] at hnumber
  have hvalue : numberOf? token = some (if Number.Fits v then .int v
      else .float (Decimal.toBinary64 ⟨decide (v < 0), v.natAbs, 0⟩)) := by
    rw [numberOf?, if_neg hkind, hnumber]
  rw [readNumber, htoken]
  simp only [bind, Except.bind, hvalue]
  rfl

/-- A whole number is written as a minus, if it is negative, and its digits. -/
theorem toList_toString_int (n : ℤ) :
    (toString n).toList = Json.minus (decide (n < 0)) ++ Nat.toDigits 10 n.natAbs := by
  cases n with
  | ofNat m =>
    show (Nat.repr m).toList = _
    simp [Nat.repr, Json.minus]
  | negSucc m =>
    show ("-" ++ Nat.repr m.succ).toList = _
    simp [Nat.repr, Json.minus]

theorem Number.spelled_toDigits (n : ℤ) : n = spelled (decide (n < 0)) (Nat.toDigits 10 n.natAbs) := by
  rw [spelled_eq, Json.ofDigits_toDigits]
  simp only [decide_eq_true_eq]
  omega

theorem Shape.readNumber_int {n : ℤ} (h : Number.Fits n) (line : UInt32) :
    (Shape.int n line).readNumber = .ok (.number (.int n)) := by
  have hsign : Json.minus (decide (n < 0)) ∈ [[], ['+'], ['-']] := by
    cases decide (n < 0) <;> decide
  have hspelled : n = Number.spelled (decide (Json.minus (decide (n < 0)) = ['-'])) (Nat.toDigits 10 n.natAbs) := by
    have hminus : ∀ negative, decide (Json.minus negative = ['-']) = negative := by decide
    rw [hminus]
    exact Number.spelled_toDigits n
  have hread := Tree.readNumber_whole (t := Shape.int n line) rfl (show "INT" ≠ "FLOAT" by decide)
    (toList_toString_int n) hsign (Json.isDigits_toDigits n.natAbs) hspelled
  rwa [if_pos h] at hread

/-- A sign and any number of digits are read as exactly the number that they spell if it has 64 bits, and else as a
    floating-point number; and every number of 64 bits is read back from the node that is made of it. -/
theorem whole_numbers_exact {t : Tree} {token : Token} {sign digits : List Char} {v : ℤ}
    (ht : t.tokenAt? 0 = some token) (hkind : token.kind ≠ "FLOAT") (htext : token.value.toList = sign ++ digits)
    (hsign : sign ∈ [[], ['+'], ['-']]) (hne : digits ≠ []) (hdigits : ∀ c ∈ digits, c.isDigit = true)
    (hv : v = Number.spelled (decide (sign = ['-'])) digits) :
    t.readNumber = .ok (.number (if -2 ^ 63 ≤ v ∧ v ≤ 2 ^ 63 - 1 then .int v
        else .float (Decimal.toBinary64 ⟨decide (v < 0), v.natAbs, 0⟩))) ∧
      ∀ (n : Int64) (line : UInt32), (Shape.int n.toInt line).readNumber = .ok (.number (.int n.toInt)) := by
  refine ⟨?_, fun n line => ?_⟩
  · exact Tree.readNumber_whole ht hkind htext hsign (Json.isDigits_iff.mpr ⟨hne, hdigits⟩) hv
  · exact Shape.readNumber_int ⟨n.le_toInt, Int.le_sub_one_of_lt n.toInt_lt⟩ line

/-- The least number of 64 bits with zeros in front of it, and the one right above the greatest. -/
theorem whole_numbers_exact_limits :
    (⟨"number", [Shape.leaf "INT" "-0009223372036854775808" 1]⟩ : Tree).readNumber =
        .ok (.number (.int (-9223372036854775808))) ∧
      (⟨"number", [Shape.leaf "INT" "+9223372036854775808" 1]⟩ : Tree).readNumber =
        .ok (.number (.float ⟨false, 1086, 0⟩)) ∧
      (Shape.int Int64.minValue.toInt 1).readNumber = .ok (.number (.int (-9223372036854775808))) := by
  have hkind : "INT" ≠ "FLOAT" := by decide
  have hleading : "-0009223372036854775808".toList = ['-'] ++ "0009223372036854775808".toList := rfl
  have hsigned : "+9223372036854775808".toList = ['+'] ++ "9223372036854775808".toList := rfl
  obtain ⟨hleast, hmade⟩ := whole_numbers_exact (t := ⟨"number", [Shape.leaf "INT" "-0009223372036854775808" 1]⟩)
    (v := -9223372036854775808) rfl hkind hleading (by decide) (by decide) (List.all_eq_true.mp rfl) rfl
  obtain ⟨habove, -⟩ := whole_numbers_exact (t := ⟨"number", [Shape.leaf "INT" "+9223372036854775808" 1]⟩)
    (v := 9223372036854775808) rfl hkind hsigned (by decide) (by decide) (List.all_eq_true.mp rfl) rfl
  have hfloat : Decimal.toBinary64 ⟨false, 9223372036854775808, 0⟩ = ⟨false, 1086, 0⟩ := by decide +kernel
  refine ⟨hleast.trans ?_, habove.trans ?_, hmade Int64.minValue 1⟩
  · rw [if_pos (by decide)]
  · rw [if_neg (by decide), ← hfloat]
    rfl

end Flowline
