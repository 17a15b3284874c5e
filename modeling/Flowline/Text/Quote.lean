import Flowline.Text.Hidden

/-!
Quotation marks: stripping the delimiters of a quoted word, and showing a word between escaped quotes.
-/

namespace Flowline.Text

/-- The characters that delimit a quoted word. -/
def isDelimiter (c : Char) : Bool :=
  c = '"' || c = '\'' || c = '\x60'

/-- Strips the delimiters of a word that opens and closes with the same one; any other word stays as it
    is. -/
def unquoteChars : List Char → List Char
  | [] => []
  | first :: rest =>
    if isDelimiter first && rest.getLast? = some first then rest.dropLast else first :: rest

/-- `unquoteChars` on strings. -/
def unquote (word : String) : String :=
  String.ofList (unquoteChars word.toList)

/-- The lower-case hexadecimal digits of `n`, without leading zeros. -/
def hexadecimal (n : Nat) : List Char :=
  Nat.toDigits 16 n

/-- A character as it is shown between double quotes: quotes, backslashes and hidden characters are
    escaped. -/
def shown (c : Char) : List Char :=
  if c = '"' then ['\\', '"']
  else if c = '\\' then ['\\', '\\']
  else if c = '\n' then ['\\', 'n']
  else if c = '\r' then ['\\', 'r']
  else if c = '\t' then ['\\', 't']
  else if c.toNat = 0 then ['\\', '0']
  else if isHidden c then '\\' :: 'u' :: '\x7b' :: (hexadecimal c.toNat ++ ['\x7d'])
  else [c]

/-- `word` between double quotes, with its special characters escaped. -/
def quoted (word : String) : String :=
  String.ofList ('"' :: (word.toList.flatMap shown ++ ['"']))

end Flowline.Text
