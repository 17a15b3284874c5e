import Flowline.Text.Blank

/-!
Texts with placeholders. A placeholder runs from an opening brace to the next closing one; an opening
brace that is never closed is ordinary text, and so is all that follows it.
-/

namespace Flowline.Text

/-- A text cut at its placeholders: each pair is the plain text before a placeholder and the placeholder's
    content. -/
structure Template where
  holes : List (List Char × List Char)
  rest : List Char
deriving DecidableEq, Repr

namespace Template

/-- Puts plain text in front. -/
def cons (c : Char) : Template → Template
  | ⟨[], rest⟩ => ⟨[], c :: rest⟩
  | ⟨(before, content) :: holes, rest⟩ => ⟨(c :: before, content) :: holes, rest⟩

/-- Scans a text; `content` holds, in reverse, what has been read since the last opening brace, if one is
    open. -/
def scan : Option (List Char) → List Char → Template
  | none, [] => ⟨[], []⟩
  | some content, [] => ⟨[], '\x7b' :: content.reverse⟩
  | none, c :: cs => if c = '\x7b' then scan (some []) cs else (scan none cs).cons c
  | some content, c :: cs =>
    if c = '\x7d' then
      let after := scan none cs
      ⟨([], content.reverse) :: after.holes, after.rest⟩
    else scan (some (c :: content)) cs

/-- Cuts a text at its placeholders. -/
def parse (text : List Char) : Template :=
  scan none text

/-- The text with every placeholder emptied. -/
def emptied (t : Template) : List Char :=
  t.holes.flatMap (fun hole => hole.1 ++ ['\x7b', '\x7d']) ++ t.rest

/-- The trimmed contents of the placeholders that are not blank, in order. -/
def names (t : Template) : List (List Char) :=
  (t.holes.map fun hole => trim hole.2).filter (!·.isEmpty)

end Template

end Flowline.Text
