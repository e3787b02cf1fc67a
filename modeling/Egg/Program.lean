import Egg.Eval
import Egg.Expr.Parser

namespace Egg.Program

open Exec

def evalWithin (limits : Limits) : Evaluator :=
  eval limits.rounds limits.depth

def callWithin (limits : Limits) (callee : Value) (arguments : List Value) : Exec Value :=
  call (evalWithin limits) callee arguments

/-- For a program, evaluating too deep is an error without a place. -/
def reportDepth : Stop → Stop
  | .fault .tooDeep => .raised ⟨.tooDeep, none⟩
  | stop => stop

def run (limits : Limits) (scope : ScopeId) (source : String) : Exec Value := do
  let e ← ofExcept (Expr.parse limits.nesting source)
  tryCatch (evalWithin limits e scope) fun stop => throw (reportDepth stop)

theorem run_eq (limits : Limits) (scope : ScopeId) (source : String) (m : Machine) :
    (run limits scope source).run m = match Expr.parse limits.nesting source with
      | .error stop => (.error stop, m)
      | .ok e => (((evalWithin limits e scope).run m).1.mapError reportDepth,
          ((evalWithin limits e scope).run m).2) := by
  rw [run, run_bind]
  cases hparse : Expr.parse limits.nesting source with
  | error stop => rfl
  | ok e =>
    rcases heval : (evalWithin limits e scope).run m with ⟨r, m'⟩
    have heval' : evalWithin limits e scope m = (r, m') := heval
    change (tryCatch (evalWithin limits e scope) fun stop => throw (reportDepth stop)).run m = _
    simp only [tryCatch, tryCatchThe, MonadExceptOf.tryCatch, ExceptT.tryCatch, ExceptT.mk, bind,
      StateT.bind, ExceptT.run, heval']
    cases r <;> rfl

/-- Several sources make one program, one after the other on lines of their own. -/
def join (sources : List String) : String :=
  "\n".intercalate sources

end Egg.Program
