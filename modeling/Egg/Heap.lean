import Egg.Error
import Egg.Number.Text
import Egg.Scope

namespace Egg

/-- A function of a program with the scope in which it was made. -/
structure Closure where
  parameters : List String
  body : Expr
  scope : ScopeId

/-- The arrays and closures made so far. Neither is ever changed. -/
structure Heap where
  arrays : Array (List Value)
  closures : Array Closure

namespace Heap

def empty : Heap := ⟨#[], #[]⟩

def displayClosure (c : Closure) : String :=
  let parameters := if c.parameters.isEmpty then "nullary" else ", ".intercalate c.parameters
  s!"<fun params={parameters} body={c.body.kindName}>"

/-- The text of a number, as a step that can fault. -/
def displayNumber (n : Number) : Except Fault String :=
  n.text.mapError .overflow

/-- How a value is shown, where arrays are looked up below a bound. What an array holds was there
before it. -/
def displayBelow (heap : Heap) (bound : ArrayId) : Value → Except Fault String
  | .bool b => .ok (if b then "true" else "false")
  | .number n => displayNumber n
  | .string s => .ok ("\"" ++ s ++ "\"")
  | .array id =>
    if id < bound then do
      let items ← (heap.arrays[id]?.getD []).mapM fun v => heap.displayBelow id v
      return "[" ++ ", ".intercalate items ++ "]"
    else .ok "[]"
  | .closure id => .ok ((heap.closures[id]?.map displayClosure).getD "")
  | .builtin b => .ok s!"<builtin {b.name}>"
termination_by bound

def display (heap : Heap) (v : Value) : Except Fault String :=
  heap.displayBelow heap.arrays.size v

/-- How a value is printed: as it is shown, but a string without its quotes. -/
def plain (heap : Heap) : Value → Except Fault String
  | .string s => .ok s
  | v => heap.display v

end Heap

end Egg
