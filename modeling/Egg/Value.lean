import Egg.Number.Basic

namespace Egg

/-- The operations that are built into the language. -/
inductive Primitive where
  | add
  | sub
  | mul
  | div
  | equal
  | less
  | greater
  | array
  | length
  | element
  | print
deriving DecidableEq, Repr

namespace Primitive

def word : Primitive → String
  | add => "+"
  | sub => "-"
  | mul => "*"
  | div => "/"
  | equal => "=="
  | less => "<"
  | greater => ">"
  | array => "array"
  | length => "length"
  | element => "element"
  | print => "print"

/-- How many arguments a primitive takes, unless it takes any number. -/
def arity : Primitive → Option Nat
  | array => none
  | length | print => some 1
  | _ => some 2

def all : List Primitive :=
  [add, sub, mul, div, equal, less, greater, array, length, element, print]

end Primitive

/-- A primitive under the name it was registered with. Each registration has a serial number of
its own. -/
structure Builtin where
  name : String
  primitive : Primitive
  serial : Nat
deriving DecidableEq, Repr

abbrev ArrayId := Nat

abbrev ClosureId := Nat

inductive Value where
  | bool (value : Bool)
  | number (value : Number)
  | string (value : String)
  | array (id : ArrayId)
  | closure (id : ClosureId)
  | builtin (value : Builtin)
deriving DecidableEq

namespace Value

/-- Only the boolean `false` counts as false. -/
def isTruthy : Value → Bool
  | bool b => b
  | _ => true

def isCallable : Value → Bool
  | closure _ | builtin _ => true
  | _ => false

/-- Numbers, strings and booleans are equal by what they hold, all other values by identity. -/
def equals : Value → Value → Bool
  | number a, number b => a.eq b
  | string a, string b => a = b
  | bool a, bool b => a = b
  | array a, array b => a = b
  | closure a, closure b => a = b
  | builtin a, builtin b => a.serial = b.serial
  | _, _ => false

end Value

end Egg
