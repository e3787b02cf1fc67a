import Egg.Position
import Egg.Text.Quoted
import Egg.Value

namespace Egg

/-- Where a name comes from: a host program wrote it, or it was read from source text. -/
inductive Origin where
  | host
  | source
deriving DecidableEq, Repr

/-- Something that a host program put in the place of an expression. -/
inductive Foreign where
  | nothing
  | int (value : Int)
  | bool (value : Bool)
  | text (value : String)
deriving DecidableEq, Repr

namespace Foreign

def display : Foreign → String
  | nothing => "None"
  | int i => toString i
  | bool b => if b then "True" else "False"
  | text s => Text.quote s

def kindName : Foreign → String
  | nothing => "NoneType"
  | int _ => "int"
  | bool _ => "bool"
  | text _ => "str"

end Foreign

inductive Expr where
  | literal (value : Value) (position : Option Position)
  | name (text : String) (origin : Origin) (position : Option Position)
  | apply (operator : Expr) (arguments : List Expr) (position : Option Position)
  | foreign (thing : Foreign)

namespace Expr

def position : Expr → Option Position
  | literal _ p | name _ _ p | apply _ _ p => p
  | foreign _ => none

def kindName : Expr → String
  | literal .. => "Literal"
  | name .. => "Identifier"
  | apply .. => "Application"
  | foreign thing => thing.kindName

mutual

/-- An expression without its positions. -/
def bare : Expr → Expr
  | literal v _ => literal v none
  | name x origin _ => name x origin none
  | apply operator arguments _ => apply operator.bare (bareAll arguments) none
  | foreign thing => foreign thing

def bareAll : List Expr → List Expr
  | [] => []
  | e :: es => e.bare :: bareAll es

end

mutual

/-- Whether two expressions differ in their positions at most. -/
def same : Expr → Expr → Bool
  | literal v _, literal w _ => v = w
  | name x o _, name y p _ => x = y && o = p
  | apply f xs _, apply g ys _ => f.same g && sameAll xs ys
  | foreign a, foreign b => a = b
  | _, _ => false

def sameAll : List Expr → List Expr → Bool
  | [], [] => true
  | x :: xs, y :: ys => x.same y && sameAll xs ys
  | _, _ => false

end

mutual

theorem same_iff (a b : Expr) : a.same b = true ↔ a.bare = b.bare := by
  cases a <;> cases b <;> simp [same, bare]
  case apply.apply f xs _ g ys _ => rw [same_iff f g, sameAll_iff xs ys]

theorem sameAll_iff (xs ys : List Expr) :
    sameAll xs ys = true ↔ bareAll xs = bareAll ys := by
  cases xs <;> cases ys <;> simp [sameAll, bareAll]
  case cons.cons x xs y ys => rw [same_iff x y, sameAll_iff xs ys]

end

end Expr

end Egg
