namespace Egg.Rounding

/-- The integer nearest to `num / den`; a half goes to the even neighbour. -/
def halfEven (num den : Nat) : Nat :=
  let quotient := num / den
  let rest := num % den
  if 2 * rest < den then quotient
  else if den < 2 * rest then quotient + 1
  else quotient + quotient % 2

/-- The integer nearest to `num / (den * 2 ^ scale)`, where the scale may be negative. -/
def scaled (num den : Nat) (scale : Int) : Nat :=
  halfEven (num * Nat.pow 2 (-scale).toNat) (den * Nat.pow 2 scale.toNat)

/-- The exponent of the last binary place that a binary64 number of the size of `num / den` has.
-/
def lastPlace (num den : Nat) : Int :=
  let place : Int := num.log2 - den.log2 - 53
  let wide := den * Nat.pow 2 53 * Nat.pow 2 place.toNat ≤ num * Nat.pow 2 (-place).toNat
  max (if wide then place + 1 else place) (-1074)

/-- The bit pattern of positive infinity. -/
def infinityBits : Nat := 2047 * Nat.pow 2 52

/-- The binary64 number nearest to `num / den`, for a positive `den`. A half goes to the even
neighbour, and what lies beyond the greatest finite number becomes infinite. Counting the
significand into the fields of the bit pattern carries over into the exponent by itself. -/
def nearest (num den : Nat) : Float :=
  if num = 0 then 0 else
    let place := lastPlace num den
    let bits := (place + 1074).toNat * Nat.pow 2 52 + scaled num den place
    Float.ofBits (min bits infinityBits).toUInt64

end Egg.Rounding
