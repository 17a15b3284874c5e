import Flowline.Number.Binary64

/-!
Number literals. A whole number has an optional sign and decimal digits. A real number may also have a
point, with a digit on at least one side of it, and an exponent of ten; infinities and the NaN are spelled
out, in any case.
-/

namespace Flowline

/-- A number: whole, or floating-point. -/
inductive Number where
  | int (value : Int)
  | float (value : Binary64)
deriving DecidableEq, Repr

/-- A decimal fraction: `coefficient * 10 ^ exponent` with a sign. -/
structure Decimal where
  negative : Bool
  coefficient : Nat
  exponent : Int
deriving DecidableEq, Repr

namespace Decimal

/-- The value of a row of decimal digits. -/
def ofDigits (digits : List Char) : Nat :=
  digits.foldl (fun n c => 10 * n + (c.toNat - '0'.toNat)) 0

/-- The nearest floating-point number. Magnitudes far outside the range are settled by their order alone. -/
def toBinary64 (d : Decimal) : Binary64 :=
  let order : Int := (Nat.toDigits 10 d.coefficient).length + d.exponent
  if d.coefficient = 0 || order < -330 then .zero d.negative
  else if 310 < order then .infinity d.negative
  else .ofRatio d.negative (d.coefficient * Nat.pow 10 d.exponent.toNat) (Nat.pow 10 (-d.exponent).toNat)

end Decimal

namespace Number

/-- Takes an optional sign off; `true` stands for a minus. -/
def sign : List Char → Bool × List Char
  | '-' :: rest => (true, rest)
  | '+' :: rest => (false, rest)
  | text => (false, text)

/-- A row of at least one digit, and nothing else. -/
def isDigits (text : List Char) : Bool :=
  !text.isEmpty && text.all Char.isDigit

/-- The whole numbers of 64 bits, from `-2 ^ 63` up to `2 ^ 63`, the latter excluded. -/
def inRange (n : Int) : Bool :=
  -9223372036854775808 ≤ n && n < 9223372036854775808

/-- Reads a signed row of digits. -/
def readSigned? (text : List Char) : Option Int :=
  let (negative, digits) := sign text
  if isDigits digits then
    some (if negative then -(Decimal.ofDigits digits : Int) else Decimal.ofDigits digits)
  else none

/-- Reads a whole number of 64 bits. -/
def readInt? (text : List Char) : Option Int :=
  (readSigned? text).filter inRange

/-- Reads the exponent that may end a real number. -/
def readExponent? : List Char → Option Int
  | [] => some 0
  | mark :: rest => if mark = 'e' || mark = 'E' then readSigned? rest else none

/-- Reads an unsigned decimal fraction. -/
def readDecimal? (negative : Bool) (text : List Char) : Option Decimal :=
  let whole := text.takeWhile Char.isDigit
  let afterWhole := text.dropWhile Char.isDigit
  let (fraction, rest) := match afterWhole with
    | '.' :: after => (after.takeWhile Char.isDigit, after.dropWhile Char.isDigit)
    | after => ([], after)
  if whole.isEmpty && fraction.isEmpty then none
  else (readExponent? rest).map fun exponent =>
    ⟨negative, Decimal.ofDigits (whole ++ fraction), exponent - fraction.length⟩

/-- Reads a floating-point number. -/
def readFloat? (text : List Char) : Option Binary64 :=
  let (negative, body) := sign text
  let word := String.ofList (body.map Char.toLower)
  if word = "inf" || word = "infinity" then some (.infinity negative)
  else if word = "nan" then some .nan
  else (readDecimal? negative body).map Decimal.toBinary64

/-- Reads a number: a whole one where the text is one of 64 bits, else a floating-point one. -/
def read? (text : List Char) : Option Number :=
  match readInt? text with
  | some n => some (.int n)
  | none => (readFloat? text).map .float

end Number

end Flowline
