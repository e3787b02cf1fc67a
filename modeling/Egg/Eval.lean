import Egg.Form.Shape
import Egg.Primitive

/-!
Evaluation. One step of evaluation is written for an arbitrary way of evaluating the expressions
inside, and evaluation to a given depth is that step with evaluation to one depth less inside.
-/

namespace Egg

/-- The limits of the machine: how deep the reader lets expressions stand inside one another, how
deep evaluation may go, and how often one loop may go round. -/
structure Limits where
  nesting : Nat
  depth : Nat
  rounds : Nat

/-- The limits in ordinary use. A loop can in practice go round as often as it likes. -/
def Limits.standard : Limits := ⟨5000, 10000, Nat.pow 2 62⟩

abbrev Evaluator : Type := Expr → ScopeId → Exec Value

open Exec

/-- Apply a closure: its body is evaluated in a new scope inside the one where it was made, in
which the parameters are bound to the arguments from left to right. -/
def Closure.apply (eval : Evaluator) (id : ClosureId) (c : Closure) (arguments : List Value) :
    Exec Value := do
  if arguments.length = c.parameters.length then
    let scope ← newScope (some c.scope) .source (c.parameters.zip arguments)
    eval c.body scope
  else
    raise (.wrongArity (← display (.closure id)) c.parameters.length arguments.length)

def call (eval : Evaluator) (callee : Value) (arguments : List Value) : Exec Value := do
  match callee with
  | .builtin b => b.apply arguments
  | .closure id =>
    match (← get).heap.closures[id]? with
    | some c => c.apply eval id arguments
    | none => raise .notCallable
  | _ => raise .notCallable

/-- Carry out a body as long as a test is true, for at most a number of rounds. A loop that ends
has the value `false`. -/
def whileTrue (test body : Exec Value) : (rounds : Nat) → Exec Value
  | 0 => throw (.fault .tooLong)
  | rounds + 1 => do
    if (← test).isTruthy then
      let _ ← body
      whileTrue test body rounds
    else
      return .bool false

/-- Evaluate expressions one after the other and give the last value, or else the given one. -/
def evalSequence (eval : Evaluator) (scope : ScopeId) (value : Value) : List Expr → Exec Value
  | [] => return value
  | e :: es => do evalSequence eval scope (← eval e scope) es

def evalArguments (eval : Evaluator) (scope : ScopeId) : List Expr → Exec (List Value)
  | [] => return []
  | e :: es => do
    let v ← eval e scope
    return v :: (← evalArguments eval scope es)

def Special.eval (eval : Evaluator) (rounds : Nat) (scope : ScopeId) : Special → Exec Value
  | conditional test yes no => do
    if (← eval test scope).isTruthy then eval yes scope else eval no scope
  | loop test body => whileTrue (eval test scope) (eval body scope) rounds
  | sequence body => evalSequence eval scope (.bool false) body
  | define name origin e => do
    let v ← eval e scope
    Exec.define scope name origin v
    return v
  | assign name e => do
    let v ← eval e scope
    Exec.assign scope name v
    return v
  | function parameters body => newClosure ⟨parameters, body, scope⟩

/-- One step of evaluation. -/
def evalStep (eval : Evaluator) (rounds : Nat) : Evaluator
  | .literal v _, _ => return v
  | .name x _ _, scope => lookup scope x
  | .apply operator arguments _, scope =>
    match operator.form? with
    | some form =>
      match form.shape arguments with
      | .ok special => special.eval eval rounds scope
      | .error e => throw (.raised e)
    | none => do
      let callee ← eval operator scope
      if callee.isCallable then
        call eval callee (← evalArguments eval scope arguments)
      else
        raise .notCallable
  | .foreign thing, _ => throw (.fault (.notExpression thing))

/-- Evaluation to a given depth. An error gets the place of the innermost expression that has
one. -/
def eval (rounds : Nat) : (depth : Nat) → Evaluator
  | 0, _, _ => throw (.fault .tooDeep)
  | depth + 1, e, scope => locate e.position (evalStep (eval rounds depth) rounds e scope)

end Egg
