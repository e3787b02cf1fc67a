import Egg.Number.Exact
import Egg.Number.Rounding
import Egg.Number.Shortest

/-!
Numbers are exact integers or binary64 floats. Two integers add, subtract and multiply exactly; an
integer that meets a float becomes a float first; comparison is exact throughout.
-/

namespace Egg

/-- A number: an integer of any size, or a float. -/
inductive Number where
  | int (value : Int)
  | float (value : Float)
deriving DecidableEq

/-- The ways in which an exact number is too large to become a float. -/
inductive Overflow where
  | integer
  | quotient
deriving DecidableEq, Repr

def Overflow.message : Overflow → String
  | integer => "int too large to convert to float"
  | quotient => "integer division result too large for a float"

namespace Number

/-- The number that a run of digits denotes: the nearest float. -/
def ofDigits (digits : List Char) : Number :=
  float (Rounding.nearest (digits.foldl (fun n c => 10 * n + (c.toNat - '0'.toNat)) 0) 1)

/-- The float nearest to the quotient of two integers, of which the second is not zero. -/
def ratio (a b : Int) : Float :=
  let x := Rounding.nearest a.natAbs b.natAbs
  if decide (a < 0) != decide (b < 0) then -x else x

def toFloat : Number → Except Overflow Float
  | float x => .ok x
  | int i =>
    let x := ratio i 1
    if x.isInf then .error .integer else .ok x

/-- The exact size of a number; a NaN has none. -/
def size? : Number → Option Size
  | int i => some (.finite (i * Size.one))
  | float x => (Fields.ofFloat x).size?

/-- The integer that a number is equal to. -/
def toInt? : Number → Option Int
  | int i => some i
  | float x => (Fields.ofFloat x).size?.bind Size.toInt?

/-- Whether the first number is below the second. A NaN is below nothing and above nothing. -/
def lt (a b : Number) : Bool :=
  match a.size?, b.size? with
  | some x, some y => x.lt y
  | _, _ => false

/-- Whether two numbers are equal. A NaN is equal to nothing. -/
def eq (a b : Number) : Bool :=
  match a.size?, b.size? with
  | some x, some y => x = y
  | _, _ => false

/-- Apply an operation exactly to two integers, and to floats otherwise. -/
def combine (exact : Int → Int → Int) (rounded : Float → Float → Float) (a b : Number) :
    Except Overflow Number :=
  match a, b with
  | int m, int n => .ok (int (exact m n))
  | a, b => do
    let x ← a.toFloat
    let y ← b.toFloat
    return float (rounded x y)

def add (a b : Number) : Except Overflow Number :=
  combine (· + ·) (· + ·) a b

def sub (a b : Number) : Except Overflow Number :=
  combine (· - ·) (· - ·) a b

def mul (a b : Number) : Except Overflow Number :=
  combine (· * ·) (· * ·) a b

/-- Division gives a float. Integers are divided exactly and rounded once; division by zero gives
an infinity, or a NaN for a zero. -/
def div (a b : Number) : Except Overflow Number :=
  match a, b with
  | int m, int n =>
    if n = 0 then do
      let x ← toFloat (int m)
      return float (x / 0)
    else
      let x := ratio m n
      if x.isInf then .error .quotient else .ok (float x)
  | a, b => do
    let x ← a.toFloat
    let y ← b.toFloat
    return float (x / y)

end Number

end Egg
