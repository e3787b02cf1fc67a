namespace Egg.Text

/-- Whether the code point of a character lies in one of the inclusive ranges. -/
def inRanges (ranges : List (Nat × Nat)) (c : Char) : Bool :=
  ranges.any fun range => range.1 ≤ c.toNat && c.toNat ≤ range.2

def blankRanges : List (Nat × Nat) :=
  [(0x0009, 0x000D), (0x001C, 0x0020), (0x0085, 0x0085), (0x00A0, 0x00A0), (0x1680, 0x1680),
    (0x2000, 0x200A), (0x2028, 0x2029), (0x202F, 0x202F), (0x205F, 0x205F), (0x3000, 0x3000)]

/-- A blank separates words and carries no other meaning. -/
def isBlank (c : Char) : Bool :=
  inRanges blankRanges c

def trimLeft (cs : List Char) : List Char :=
  cs.dropWhile isBlank

def trimRight (cs : List Char) : List Char :=
  (cs.reverse.dropWhile isBlank).reverse

def trim (cs : List Char) : List Char :=
  trimRight (trimLeft cs)

/-- The first word of a line and what follows it, without the blanks around either. The word is
empty exactly when the line is blank. -/
def splitWord (cs : List Char) : List Char × List Char :=
  let line := trimLeft cs
  (line.takeWhile (!isBlank ·), trim (line.dropWhile (!isBlank ·)))

/-- The text with the letters `A` to `Z` made small. -/
def lower (cs : List Char) : List Char :=
  cs.map Char.toLower

end Egg.Text
