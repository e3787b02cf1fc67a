import Egg.Number.Basic

namespace Egg

/-- The decisions about how a decimal is laid out. -/
structure DecimalFormat where
  /-- The least exponent that is still written without an exponent mark. -/
  leastPlain : Int
  /-- The least exponent from which on the exponent mark is written again. -/
  firstMarked : Int
  /-- The least number of digits of a written exponent. -/
  exponentWidth : Nat

namespace DecimalFormat

/-- The digits of a decimal without the zeros at its end, and the place of its decimal point. -/
def parts (d : Decimal) : List Char × Int :=
  let digits := Nat.toDigits 10 d.digits
  ((digits.reverse.dropWhile (· = '0')).reverse, digits.length + d.exponent)

/-- A number written out in full, with at least one digit on both sides of the point. -/
def plain (digits : List Char) (point : Int) : List Char :=
  let whole := digits.take point.toNat
  let fraction := digits.drop point.toNat
  let whole := if whole.isEmpty then ['0'] else whole
  let fraction := if fraction.isEmpty then ['0'] else fraction
  whole ++ List.replicate (point.toNat - digits.length) '0' ++
    '.' :: (List.replicate (-point).toNat '0' ++ fraction)

/-- A number written with one digit before the point and a signed exponent. -/
def marked (format : DecimalFormat) (digits : List Char) (exponent : Int) : List Char :=
  let mantissa := digits.take 1 ++ (if digits.length ≤ 1 then [] else '.' :: digits.drop 1)
  let power := Nat.toDigits 10 exponent.natAbs
  mantissa ++ 'e' :: (if exponent < 0 then '-' else '+') ::
    (List.replicate (format.exponentWidth - power.length) '0' ++ power)

def write (format : DecimalFormat) (d : Decimal) : List Char :=
  let (digits, point) := parts d
  if format.leastPlain < point && point ≤ format.firstMarked then plain digits point
  else format.marked digits (point - 1)

end DecimalFormat

namespace Number

/-- Floats are written without an exponent from 10⁻⁴ up to, but not including, 10¹⁶; a written
exponent has at least two digits. -/
def floatFormat : DecimalFormat := ⟨-4, 16, 2⟩

def floatText (x : Float) : String :=
  let f := Fields.ofFloat x
  match f.size? with
  | none => "nan"
  | some .posInf => "inf"
  | some .negInf => "-inf"
  | some (.finite units) =>
    let sign := if f.negative then "-" else ""
    sign ++ if units = 0 then "0.0" else String.ofList (floatFormat.write (Shortest.decimal f))

/-- The integers that are written as such are those below this one. -/
def integerLimit : Nat := Nat.pow 10 21

/-- The text of a number: it is rounded to a float, and then written as an integer if it is one
and not too large. -/
def text (n : Number) : Except Overflow String := do
  let x ← n.toFloat
  match toInt? (float x) with
  | some i => return if i.natAbs < integerLimit then toString i else floatText x
  | none => return floatText x

end Number

end Egg
