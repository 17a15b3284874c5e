import Flowline.Json.Basic
import Flowline.Number.Shortest

/-!
The text of a JSON value: no spaces, fields in order, and only the characters escaped that must be.
Floating-point numbers are written with the fewest digits that read back; infinities and the NaN, which
have no numeral, are written `null`.
-/

namespace Flowline.Json

/-- How floating-point numbers are laid out: those whose first digit stands for a power of ten from
    `10 ^ least` to `10 ^ greatest` are written positionally. -/
structure NumeralStyle where
  least : Int
  greatest : Int

/-- Numbers from a hundred-thousandth up to sixteen whole digits are written positionally. -/
def numeralStyle : NumeralStyle := ⟨-5, 15⟩

/-- Positional numeral of `digits`, the first standing for `10 ^ order`; a digit always follows the point. -/
def positional (digits : List Char) (order : Int) : List Char :=
  if order < 0 then '0' :: '.' :: (List.replicate (-order - 1).toNat '0' ++ digits)
  else
    let width := order.toNat + 1
    let fraction := digits.drop width
    digits.take width ++ List.replicate (width - digits.length) '0' ++
      '.' :: (if fraction.isEmpty then ['0'] else fraction)

/-- Scientific numeral of `digits`, the first standing for `10 ^ order`; the exponent always has a sign. -/
def scientific (digits : List Char) (order : Int) : List Char :=
  digits.take 1 ++ (if digits.length ≤ 1 then [] else '.' :: digits.drop 1) ++
    'e' :: (if order < 0 then '-' else '+') :: Nat.toDigits 10 order.natAbs

/-- Numeral of a magnitude given as a coefficient and a power of ten. -/
def decimalChars (coefficient : Nat) (exponent : Int) : List Char :=
  let digits := Nat.toDigits 10 coefficient
  let order := exponent + digits.length - 1
  if numeralStyle.least ≤ order && order ≤ numeralStyle.greatest then positional digits order
  else scientific digits order

/-- The text of a floating-point number. -/
def floatChars (x : Binary64) : List Char :=
  if x.isFinite then
    let magnitude := if x.significand = 0 then positional ['0'] 0
      else decimalChars x.shortest.1 x.shortest.2
    if x.negative then '-' :: magnitude else magnitude
  else "null".toList

/-- The text of a whole number. -/
def intChars (n : Int) : List Char :=
  if n < 0 then '-' :: Nat.toDigits 10 n.natAbs else Nat.toDigits 10 n.natAbs

/-- The text of a number. -/
def numberChars : Number → List Char
  | .int n => intChars n
  | .float x => floatChars x

/-- A character inside a JSON string. -/
def escaped (c : Char) : List Char :=
  if c = '"' then ['\\', '"']
  else if c = '\\' then ['\\', '\\']
  else if c = '\x08' then ['\\', 'b']
  else if c = '\t' then ['\\', 't']
  else if c = '\n' then ['\\', 'n']
  else if c = '\x0c' then ['\\', 'f']
  else if c = '\r' then ['\\', 'r']
  else if c.toNat < 0x20 then
    ['\\', 'u', '0', '0', Nat.digitChar (c.toNat / 16), Nat.digitChar (c.toNat % 16)]
  else [c]

/-- A JSON string. -/
def stringChars (text : String) : List Char :=
  '"' :: (text.toList.flatMap escaped ++ ['"'])

mutual

/-- The characters of a JSON value. -/
def chars : Json → List Char
  | .null => "null".toList
  | .bool true => "true".toList
  | .bool false => "false".toList
  | .number n => numberChars n
  | .string text => stringChars text
  | .array [] => ['[', ']']
  | .array (item :: items) => '[' :: (item.chars ++ charsOfItems items)
  | .object [] => ['\x7b', '\x7d']
  | .object ((name, value) :: fields) =>
    '\x7b' :: (stringChars name ++ ':' :: (value.chars ++ charsOfFields fields))

/-- The items after the first, and the end of the array. -/
def charsOfItems : List Json → List Char
  | [] => [']']
  | item :: items => ',' :: (item.chars ++ charsOfItems items)

/-- The fields after the first, and the end of the object. -/
def charsOfFields : List (String × Json) → List Char
  | [] => ['\x7d']
  | (name, value) :: fields => ',' :: (stringChars name ++ ':' :: (value.chars ++ charsOfFields fields))

end

/-- The text of a JSON value. -/
def render (j : Json) : String :=
  String.ofList j.chars

end Flowline.Json
