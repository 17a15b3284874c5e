/-! Classes of characters that are given by ranges of code points. -/

namespace Flowline.Text

/-- Whether `c` lies in one of the ranges, ends included. -/
def within (ranges : List (Nat × Nat)) (c : Char) : Bool :=
  ranges.any fun range => range.1 ≤ c.toNat && c.toNat ≤ range.2

end Flowline.Text
