import Egg.Number.Exact

namespace Egg

/-- The decimal `digits * 10 ^ exponent`. -/
structure Decimal where
  digits : Nat
  exponent : Int
deriving DecidableEq, Repr

namespace Shortest

/-- The reals that round to one number: all counts have the same positive denominator. -/
structure Interval where
  low : Nat
  value : Nat
  high : Nat
  denominator : Nat
  /-- Whether the two ends round to the number too. -/
  closed : Bool

/-- The interval of a positive finite number: it ends halfway to the two neighbours. The one below
is nearer when the significand is a power of two that is not the least. -/
def interval (f : Fields) : Interval :=
  let m := f.significand
  let gap := if f.fraction = 0 && 1 < f.exponent then 1 else 2
  let up := Nat.pow 2 (f.scale - 1076)
  ⟨(4 * m - gap) * up, 4 * m * up, (4 * m + 2) * up, Nat.pow 2 (1076 - f.scale), m % 2 = 0⟩

def digitCount (n : Nat) : Nat :=
  (Nat.toDigits 10 n).length

/-- The place of the decimal point: the value is below `10 ^ point`, and not below a tenth of it.
-/
def point (i : Interval) : Int :=
  if i.denominator ≤ i.value then digitCount (i.value / i.denominator)
  else 1 - digitCount ((i.denominator - 1) / i.value)

/-- The multiple of `10 ^ exponent` that lies in the interval and is nearest to its value, if
there is one. Of two equally near ones it is the even one. -/
def onGrid? (i : Interval) (exponent : Int) : Option Nat :=
  let up := Nat.pow 10 (-exponent).toNat
  let unit := i.denominator * Nat.pow 10 exponent.toNat
  let value := i.value * up
  let below := value / unit
  let fits (a b : Nat) : Bool := a < b || (i.closed && a = b)
  let belowFits := fits (i.low * up) (below * unit)
  let aboveFits := fits ((below + 1) * unit) (i.high * up)
  match belowFits, aboveFits with
  | false, false => none
  | true, false => some below
  | false, true => some (below + 1)
  | true, true =>
    let middle := (2 * below + 1) * unit
    if 2 * value < middle then some below
    else if middle < 2 * value then some (below + 1)
    else some (below + below % 2)

/-- The first grid, among those of the given numbers of digits, that meets the interval. -/
def search (i : Interval) : List Nat → Decimal
  | [] => ⟨i.value / i.denominator, 0⟩
  | count :: counts =>
    let exponent := point i - count
    match onGrid? i exponent with
    | some digits => ⟨digits, exponent⟩
    | none => search i counts

/-- The shortest decimal for a positive finite number, and the nearest of that length. Seventeen
digits are always enough. -/
def decimal (f : Fields) : Decimal :=
  search (interval f) (List.range' 1 17)

end Shortest

end Egg
