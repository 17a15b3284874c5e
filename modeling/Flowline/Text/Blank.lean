/-! White space in the sense of the Unicode property `White_Space`, and trimming by it. -/

namespace Flowline.Text

/-- The code points with the property `White_Space`, in ascending order. -/
def blankPoints : List Nat :=
  [0x09, 0x0A, 0x0B, 0x0C, 0x0D, 0x20, 0x85, 0xA0, 0x1680, 0x2000, 0x2001, 0x2002, 0x2003, 0x2004, 0x2005, 0x2006,
    0x2007, 0x2008, 0x2009, 0x200A, 0x2028, 0x2029, 0x202F, 0x205F, 0x3000]

/-- Whether `c` is white space. -/
def isBlank (c : Char) : Bool :=
  blankPoints.contains c.toNat

/-- Drops the white space at both ends. -/
def trim (cs : List Char) : List Char :=
  ((cs.dropWhile isBlank).reverse.dropWhile isBlank).reverse

end Flowline.Text
