import Flowline.Text.Blank
import Flowline.Text.Mark
import Flowline.Text.Unassigned

/-!
Characters that do not show by themselves: controls, white space other than the space, format controls,
fillers, characters for private use, code points without a character, and the marks that extend the
character before them. The tables are those of Unicode 17.
-/

namespace Flowline.Text

/-- Control characters. -/
def isControl (c : Char) : Bool :=
  c.toNat < 0x20 || (0x7F ≤ c.toNat && c.toNat < 0xA0)

/-- The ranges of format controls, ascending and apart. -/
def formatRanges : List (Nat × Nat) :=
  [(0xAD, 0xAD), (0x600, 0x605), (0x61C, 0x61C), (0x6DD, 0x6DD), (0x70F, 0x70F), (0x890, 0x891),
    (0x8E2, 0x8E2), (0x180E, 0x180E), (0x200B, 0x200F), (0x202A, 0x202E), (0x2060, 0x2064), (0x2066, 0x206F),
    (0xFEFF, 0xFEFF), (0xFFF9, 0xFFFB), (0x110BD, 0x110BD), (0x110CD, 0x110CD), (0x13430, 0x1343F),
    (0x1BCA0, 0x1BCA3), (0x1D173, 0x1D17A), (0xE0001, 0xE0001), (0xE0020, 0xE007F)]

/-- The ranges of the letters that fill a place and show nothing. -/
def fillerRanges : List (Nat × Nat) :=
  [(0x115F, 0x1160), (0x3164, 0x3164), (0xFFA0, 0xFFA0)]

/-- The ranges for private use. -/
def privateRanges : List (Nat × Nat) :=
  [(0xE000, 0xF8FF), (0xF0000, 0xFFFFD), (0x100000, 0x10FFFD)]

/-- Whether `c` does not show by itself. -/
def isHidden (c : Char) : Bool :=
  isControl c ||
    (0xA0 ≤ c.toNat &&
      (isBlank c || within formatRanges c || within fillerRanges c || within privateRanges c || isMark c ||
        isUnassigned c))

end Flowline.Text
