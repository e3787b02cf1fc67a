import Egg.Machine

namespace Egg

open Exec

namespace Primitive

/-- The two numbers that an arithmetical primitive works on. -/
def numbers (p : Primitive) (left right : Value) : Exec (Number × Number) := do
  match left, right with
  | .number a, .number b => return (a, b)
  | _, _ => raise (.notNumbers p (← display left) (← display right))

def arithmetic (p : Primitive) (operation : Number → Number → Except Overflow Number)
    (left right : Value) : Exec Value := do
  let (a, b) ← p.numbers left right
  return .number (← ofOverflow (operation a b))

/-- Addition joins texts as soon as one of its operands is a string. -/
def addition (left right : Value) : Exec Value := do
  match left, right with
  | .string _, _ | _, .string _ => return .string ((← plain left) ++ (← plain right))
  | _, _ => add.arithmetic Number.add left right

/-- Whether one value is below another. Only two numbers, or two strings, can be compared; strings
compare by code points. -/
def comparison (p : Primitive) (left right : Value) : Exec Value := do
  match left, right with
  | .number a, .number b => return .bool (if p = less then a.lt b else b.lt a)
  | .string a, .string b => return .bool (if p = less then a < b else b < a)
  | _, _ => raise (.notOrdered p (← display left) (← display right))

def items (p : Primitive) (value : Value) : Exec (List Value) := do
  match value with
  | .array id => return (← get).heap.arrays[id]?.getD []
  | _ => raise (.notArray p (← display value))

/-- The item of an array at an index, which is any number that is equal to an integer once it is a
float. An integer that is too large for a float is no index. -/
def elementAt (array index : Value) : Exec Value := do
  let values ← element.items array
  match index with
  | .number n =>
    let x ← ofOverflow n.toFloat
    match if (Number.float x).toInt?.isSome then n.toInt? else none with
    | some i =>
      match if i < 0 then none else values[i.toNat]? with
      | some v => return v
      | none => raise (.outOfRange i values.length)
    | none => raise (.notIndex (← display index))
  | _ => raise (.notIndex (← display index))

def printLine (value : Value) : Exec Value := do
  Exec.print ((← plain value) ++ "\n")
  return value

end Primitive

/-- Apply a builtin to arguments, of which there must be as many as it takes. -/
def Builtin.apply (b : Builtin) (arguments : List Value) : Exec Value :=
  match b.primitive, arguments with
  | .add, [x, y] => Primitive.addition x y
  | .sub, [x, y] => Primitive.sub.arithmetic Number.sub x y
  | .mul, [x, y] => Primitive.mul.arithmetic Number.mul x y
  | .div, [x, y] => Primitive.div.arithmetic Number.div x y
  | .equal, [x, y] => return .bool (x.equals y)
  | .less, [x, y] => Primitive.less.comparison x y
  | .greater, [x, y] => Primitive.greater.comparison x y
  | .array, items => newArray items
  | .length, [x] => return .number (.int (← Primitive.length.items x).length)
  | .element, [x, y] => Primitive.elementAt x y
  | .print, [x] => Primitive.printLine x
  | p, _ => do
    raise (.wrongArity (← display (.builtin b)) (p.arity.getD 0) arguments.length)

end Egg
