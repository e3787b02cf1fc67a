/-!
The exact size of a binary64 number. Every finite binary64 number is a whole multiple of the
smallest positive one, so its size is an integer in that unit, and comparing sizes is comparing
integers.
-/

namespace Egg

/-- The size of a number that is not a NaN; a finite one counts units of 2⁻¹⁰⁷⁴. -/
inductive Size where
  | negInf
  | finite (units : Int)
  | posInf
deriving DecidableEq, Repr

namespace Size

/-- The number of units in the number one. -/
def one : Nat := Nat.pow 2 1074

def lt : Size → Size → Bool
  | negInf, negInf => false
  | negInf, _ => true
  | finite m, finite n => m < n
  | finite _, posInf => true
  | finite _, negInf => false
  | posInf, _ => false

/-- The integer that a size is equal to. -/
def toInt? : Size → Option Int
  | finite units => if units % one = 0 then some (units / one) else none
  | _ => none

end Size

/-- The three fields of a binary64 bit pattern. -/
structure Fields where
  negative : Bool
  exponent : Nat
  fraction : Nat
deriving DecidableEq, Repr

namespace Fields

def ofFloat (x : Float) : Fields :=
  let bits := x.toBits.toNat
  ⟨Nat.pow 2 63 ≤ bits, bits / Nat.pow 2 52 % Nat.pow 2 11, bits % Nat.pow 2 52⟩

/-- The exponent field of infinities and NaNs. -/
def topExponent : Nat := 2047

/-- The digits of a finite number: it is `significand * 2 ^ (scale - 1074)`. -/
def significand (f : Fields) : Nat :=
  if f.exponent = 0 then f.fraction else Nat.pow 2 52 + f.fraction

/-- The power of two by which the significand of a finite number counts. -/
def scale (f : Fields) : Nat :=
  f.exponent - 1

/-- The exact size; a NaN has none. -/
def size? (f : Fields) : Option Size :=
  if f.exponent = topExponent then
    if f.fraction ≠ 0 then none else some (if f.negative then .negInf else .posInf)
  else
    let units : Int := (f.significand * Nat.pow 2 f.scale : Nat)
    some (.finite (if f.negative then -units else units))

end Fields

end Egg
