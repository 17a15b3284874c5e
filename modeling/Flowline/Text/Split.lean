/-! Cutting a text at a separator. -/

namespace Flowline.Text

/-- The pieces of `cs` between occurrences of `sep`: one more than there are occurrences, so never none. -/
def pieces (sep : Char) : List Char → List (List Char)
  | [] => [[]]
  | c :: cs =>
    if c = sep then [] :: pieces sep cs
    else match pieces sep cs with
      | [] => [[c]]
      | first :: rest => (c :: first) :: rest

/-- The dot-separated parts of `text`. -/
def dotted (text : String) : List String :=
  (pieces '.' text.toList).map String.ofList

/-- Whether the character `c` occurs in `text`. -/
def has (text : String) (c : Char) : Bool :=
  text.toList.contains c

end Flowline.Text
