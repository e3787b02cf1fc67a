import Egg.Expr.Basic
import Egg.Form.Basic

namespace Egg

/-- A message, with the place it is about. -/
def located (message : String) : Option Position → String
  | none => message
  | some p => s!"{message} (line {p.line}, col {p.column})"

inductive Reason where
  | noExpression
  | noSeparator
  | trailingText
deriving DecidableEq, Repr

def Reason.message : Reason → String
  | noExpression => "unexpected syntax"
  | noSeparator => "expected ',' or ')'"
  | trailingText => "unexpected trailing text"

/-- A rejected text: the reason, the place, and what was not read. -/
structure Rejection where
  reason : Reason
  position : Position
  rest : String
deriving DecidableEq, Repr

/-- The five kinds of errors that a program can cause. -/
inductive Error.Kind where
  | malformed
  | runtime
  | reference
  | mistyped
  | index
deriving DecidableEq, Repr

/-- What went wrong in a program. Offending values are given as they are shown. -/
inductive Cause where
  | argumentCount (form : Form) (expected got : Nat)
  | notWord (form : Form)
  | noBody
  | undefined (name : String)
  | unassignable (name : String)
  | notCallable
  | wrongArity (callee : String) (expected got : Nat)
  | notNumbers (operation : Primitive) (left right : String)
  | notOrdered (operation : Primitive) (left right : String)
  | notArray (operation : Primitive) (got : String)
  | notIndex (got : String)
  | outOfRange (index : Int) (size : Nat)
  | tooDeep
deriving DecidableEq, Repr

namespace Cause

def kind : Cause → Error.Kind
  | argumentCount .. | notWord _ | noBody => .malformed
  | undefined _ | unassignable _ => .reference
  | notCallable | wrongArity .. | notNumbers .. | notOrdered .. => .mistyped
  | notArray .. | notIndex _ => .mistyped
  | outOfRange .. => .index
  | tooDeep => .runtime

def message : Cause → String
  | argumentCount form expected got =>
    s!"bad number of arguments to {form.word}: expected {expected}, got {got}"
  | notWord form =>
    let what := if form = .function then "parameter name" else "name"
    s!"bad use of {form.word}: {what} must be a word"
  | noBody => "functions need a body"
  | undefined name => s!"undefined variable: {name}"
  | unassignable name => s!"assigning undefined variable: {name}"
  | notCallable => "applying a non-function"
  | wrongArity callee expected got =>
    s!"wrong number of arguments: {callee} expects {expected}; got {got}"
  | notNumbers operation left right =>
    s!"'{operation.word}' expects two numbers; got {left} and {right}"
  | notOrdered operation left right =>
    s!"'{operation.word}' expects two numbers or two strings; got {left} and {right}"
  | notArray operation got => s!"{operation.word} expects an array; got {got}"
  | notIndex got => s!"element expects an integer index; got {got}"
  | outOfRange index size => s!"element index {index} out of range for array of length {size}"
  | tooDeep => "maximum recursion depth exceeded"

/-- The name that a cause is about, if it is about one. -/
def name? : Cause → Option String
  | undefined name | unassignable name => some name
  | _ => none

end Cause

/-- An error of a program: its cause, and its place once an expression with one has been left. -/
structure Error where
  cause : Cause
  position : Option Position
deriving DecidableEq, Repr

/-- What ends everything and is not an error of the program: a number out of the range of floats,
something that is no expression, or a limit of the machine. -/
inductive Fault where
  | overflow (kind : Overflow)
  | notExpression (thing : Foreign)
  | tooDeep
  | tooLong
deriving DecidableEq, Repr

def Fault.message : Fault → String
  | overflow kind => kind.message
  | notExpression thing => s!"not an Egg AST node: {thing.display}"
  | tooDeep => "too deep"
  | tooLong => "too long"

/-- How reading or evaluating ends without a value. -/
inductive Stop where
  | rejected (rejection : Rejection)
  | raised (error : Error)
  | fault (fault : Fault)
deriving DecidableEq, Repr

namespace Stop

def message : Stop → String
  | rejected r => located r.reason.message (some r.position)
  | raised e => located e.cause.message e.position
  | fault f => f.message

/-- Faults end a run of the machine; anything else is an answer to the program's author. -/
def isFault : Stop → Bool
  | fault _ => true
  | _ => false

/-- Tell where an error is, unless it is known already. -/
def locate (position : Option Position) : Stop → Stop
  | raised ⟨cause, none⟩ => raised ⟨cause, position⟩
  | stop => stop

end Stop

end Egg
