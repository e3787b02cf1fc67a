import Egg.Text.Unassigned

namespace Egg.Text

/-- The inclusive code point ranges of the controls. -/
def controlRanges : List (Nat × Nat) :=
  [(0x0000, 0x001F), (0x007F, 0x009F)]

/-- The inclusive code point ranges of the characters that only direct how others are set. -/
def formatRanges : List (Nat × Nat) :=
  [(0x00AD, 0x00AD), (0x0600, 0x0605), (0x061C, 0x061C), (0x06DD, 0x06DD), (0x070F, 0x070F),
    (0x0890, 0x0891), (0x08E2, 0x08E2), (0x180E, 0x180E), (0x200B, 0x200F), (0x202A, 0x202E),
    (0x2060, 0x2064), (0x2066, 0x206F), (0xFEFF, 0xFEFF), (0xFFF9, 0xFFFB), (0x110BD, 0x110BD),
    (0x110CD, 0x110CD), (0x13430, 0x13438), (0x1BCA0, 0x1BCA3), (0x1D173, 0x1D17A),
    (0xE0001, 0xE0001), (0xE0020, 0xE007F)]

/-- The inclusive code point ranges that are left to private agreement. -/
def privateRanges : List (Nat × Nat) :=
  [(0xE000, 0xF8FF), (0xF0000, 0xFFFFD), (0x100000, 0x10FFFD)]

/-- A visible character can be told from others by looking at it. -/
def isVisible (c : Char) : Bool :=
  c = ' ' ||
    !(isBlank c || inRanges controlRanges c || inRanges formatRanges c ||
      inRanges privateRanges c || isUnassigned c)

end Egg.Text
