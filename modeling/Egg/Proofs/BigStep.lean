import Egg.Eval
import Egg.Proofs.SpecialShape

/-!
Big-step semantics. The rules say how a task ends that is carried out in a scope of a machine:
with which result, and in which state it leaves the machine. An effect that a task had before it
stopped is part of that state, and the rule `stop` lets nothing happen after a sub-expression that
stopped.
-/

namespace Egg

namespace Machine

def define (m : Machine) (scope : ScopeId) (name : String) (origin : Origin) (value : Value) :
    Machine :=
  { m with forest := m.forest.define scope name origin value }

def set (m : Machine) (scope : ScopeId) (name : String) (value : Value) : Machine :=
  { m with forest := m.forest.set scope name value }

/-- The machine with one more scope, in which the parameters of a closure are bound to arguments.
It stands inside the scope that the closure was made in. -/
def enter (m : Machine) (c : Closure) (arguments : List Value) : Machine :=
  { m with
    forest := (m.forest.push ⟨some c.scope, []⟩).defineAll m.forest.size .source
      (c.parameters.zip arguments) }

def addClosure (m : Machine) (c : Closure) : Machine :=
  { m with heap := { m.heap with closures := m.heap.closures.push c } }

end Machine

/-- What evaluation has to do: evaluate an expression and locate its error, evaluate it and leave
the error as it is, carry out a special form, go through one round of a loop, evaluate the rest of
a sequence or of the operands of a call, or call a value. -/
inductive Task where
  | expression (e : Expr)
  | node (e : Expr)
  | special (special : Special)
  | round (test body : Expr)
  | sequence (value : Value) (rest : List Expr)
  | operands (callee : Value) (done : List Value) (rest : List Expr)
  | call (callee : Value) (arguments : List Value)

/-- The sub-expression that a task evaluates before anything else. -/
inductive Task.Begins : Task → Expr → Prop where
  | conditional {test yes no : Expr} : Begins (.special (.conditional test yes no)) test
  | loop {test body : Expr} : Begins (.special (.loop test body)) test
  | round {test body : Expr} : Begins (.round test body) body
  | sequence {v : Value} {e : Expr} {es : List Expr} : Begins (.sequence v (e :: es)) e
  | define {x : String} {o : Origin} {e : Expr} : Begins (.special (.define x o e)) e
  | assign {x : String} {e : Expr} : Begins (.special (.assign x e)) e
  | operator {f : Expr} {es : List Expr} {p : Option Position} :
      (∀ form : Form, f.word? ≠ some form.word) → Begins (.node (.apply f es p)) f
  | operand {f : Value} {done : List Value} {e : Expr} {es : List Expr} :
      Begins (.operands f done (e :: es)) e

/-- The result of raising an error that has no place yet. -/
def raised (cause : Cause) : Except Stop Value :=
  .error (.raised ⟨cause, none⟩)

/-- How tasks end. With `limited` a run may also be given up at a limit of the machine; without it
these are the rules of the language alone. -/
inductive Runs (limited : Bool) :
    Task → ScopeId → Machine → Except Stop Value → Machine → Prop where
  | located {e : Expr} {s : ScopeId} {m m' : Machine} {r : Except Stop Value} :
      Runs limited (.node e) s m r m' →
      Runs limited (.expression e) s m (r.mapError (Stop.locate e.position)) m'
  | stop {task : Task} {e : Expr} {s : ScopeId} {m m' : Machine} {stop : Stop} :
      task.Begins e → Runs limited (.expression e) s m (.error stop) m' →
      Runs limited task s m (.error stop) m'
  -- literals and names
  | literal {v : Value} {p : Option Position} {s : ScopeId} {m : Machine} :
      Runs limited (.node (.literal v p)) s m (.ok v) m
  | name {x : String} {o : Origin} {p : Option Position} {v : Value} {s : ScopeId} {m : Machine} :
      m.forest.lookup? s x = some v → Runs limited (.node (.name x o p)) s m (.ok v) m
  | undefined {x : String} {o : Origin} {p : Option Position} {s : ScopeId} {m : Machine} :
      m.forest.lookup? s x = none →
      Runs limited (.node (.name x o p)) s m (raised (.undefined x)) m
  | foreign {thing : Foreign} {s : ScopeId} {m : Machine} :
      Runs limited (.node (.foreign thing)) s m (.error (.fault (.notExpression thing))) m
  -- special forms
  | misshapen {form : Form} {o : Origin} {q p : Option Position} {es : List Expr} {error : Error}
      {s : ScopeId} {m : Machine} :
      Misshapen form es error →
      Runs limited (.node (.apply (.name form.word o q) es p)) s m (.error (.raised error)) m
  | form {form : Form} {o : Origin} {q p : Option Position} {es : List Expr} {special : Special}
      {s : ScopeId} {m m' : Machine} {r : Except Stop Value} :
      Shaped form es special → Runs limited (.special special) s m r m' →
      Runs limited (.node (.apply (.name form.word o q) es p)) s m r m'
  | conditionalYes {test yes no : Expr} {v : Value} {s : ScopeId} {m m₁ m₂ : Machine}
      {r : Except Stop Value} :
      Runs limited (.expression test) s m (.ok v) m₁ → v ≠ .bool false →
      Runs limited (.expression yes) s m₁ r m₂ →
      Runs limited (.special (.conditional test yes no)) s m r m₂
  | conditionalNo {test yes no : Expr} {s : ScopeId} {m m₁ m₂ : Machine} {r : Except Stop Value} :
      Runs limited (.expression test) s m (.ok (.bool false)) m₁ →
      Runs limited (.expression no) s m₁ r m₂ →
      Runs limited (.special (.conditional test yes no)) s m r m₂
  | loopEnd {test body : Expr} {s : ScopeId} {m m₁ : Machine} :
      Runs limited (.expression test) s m (.ok (.bool false)) m₁ →
      Runs limited (.special (.loop test body)) s m (.ok (.bool false)) m₁
  | loopRound {test body : Expr} {v : Value} {s : ScopeId} {m m₁ m₂ : Machine}
      {r : Except Stop Value} :
      Runs limited (.expression test) s m (.ok v) m₁ → v ≠ .bool false →
      Runs limited (.round test body) s m₁ r m₂ →
      Runs limited (.special (.loop test body)) s m r m₂
  | round {test body : Expr} {v : Value} {s : ScopeId} {m m₁ m₂ : Machine}
      {r : Except Stop Value} :
      Runs limited (.expression body) s m (.ok v) m₁ →
      Runs limited (.special (.loop test body)) s m₁ r m₂ →
      Runs limited (.round test body) s m r m₂
  | sequence {es : List Expr} {s : ScopeId} {m m' : Machine} {r : Except Stop Value} :
      Runs limited (.sequence (.bool false) es) s m r m' →
      Runs limited (.special (.sequence es)) s m r m'
  | sequenceEnd {v : Value} {s : ScopeId} {m : Machine} :
      Runs limited (.sequence v []) s m (.ok v) m
  | sequenceNext {v w : Value} {e : Expr} {es : List Expr} {s : ScopeId} {m m₁ m₂ : Machine}
      {r : Except Stop Value} :
      Runs limited (.expression e) s m (.ok w) m₁ → Runs limited (.sequence w es) s m₁ r m₂ →
      Runs limited (.sequence v (e :: es)) s m r m₂
  | define {x : String} {o : Origin} {e : Expr} {v : Value} {s : ScopeId} {m m₁ : Machine} :
      Runs limited (.expression e) s m (.ok v) m₁ →
      Runs limited (.special (.define x o e)) s m (.ok v) (m₁.define s x o v)
  | assign {x : String} {e : Expr} {v : Value} {owner s : ScopeId} {m m₁ : Machine} :
      Runs limited (.expression e) s m (.ok v) m₁ → m₁.forest.owner? s x = some owner →
      Runs limited (.special (.assign x e)) s m (.ok v) (m₁.set owner x v)
  | unassignable {x : String} {e : Expr} {v : Value} {s : ScopeId} {m m₁ : Machine} :
      Runs limited (.expression e) s m (.ok v) m₁ → m₁.forest.owner? s x = none →
      Runs limited (.special (.assign x e)) s m (raised (.unassignable x)) m₁
  | function {names : List String} {body : Expr} {s : ScopeId} {m : Machine} :
      Runs limited (.special (.function names body)) s m (.ok (.closure m.heap.closures.size))
        (m.addClosure ⟨names, body, s⟩)
  -- applications: the operator, the check that it can be called, the operands, the call
  | notCallable {f : Expr} {es : List Expr} {p : Option Position} {v : Value} {s : ScopeId}
      {m m₁ : Machine} :
      (∀ form : Form, f.word? ≠ some form.word) → Runs limited (.expression f) s m (.ok v) m₁ →
      v.isCallable = false → Runs limited (.node (.apply f es p)) s m (raised .notCallable) m₁
  | application {f : Expr} {es : List Expr} {p : Option Position} {v : Value} {s : ScopeId}
      {m m₁ m₂ : Machine} {r : Except Stop Value} :
      (∀ form : Form, f.word? ≠ some form.word) → Runs limited (.expression f) s m (.ok v) m₁ →
      v.isCallable = true → Runs limited (.operands v [] es) s m₁ r m₂ →
      Runs limited (.node (.apply f es p)) s m r m₂
  | operand {f v : Value} {done : List Value} {e : Expr} {es : List Expr} {s : ScopeId}
      {m m₁ m₂ : Machine} {r : Except Stop Value} :
      Runs limited (.expression e) s m (.ok v) m₁ →
      Runs limited (.operands f (done ++ [v]) es) s m₁ r m₂ →
      Runs limited (.operands f done (e :: es)) s m r m₂
  | operandsEnd {f : Value} {done : List Value} {s : ScopeId} {m m' : Machine}
      {r : Except Stop Value} :
      Runs limited (.call f done) s m r m' → Runs limited (.operands f done []) s m r m'
  | builtinArity {b : Builtin} {arguments : List Value} {n : Nat} {s : ScopeId} {m : Machine} :
      b.primitive.arity = some n → arguments.length ≠ n →
      Runs limited (.call (.builtin b) arguments) s m
        (raised (.wrongArity s!"<builtin {b.name}>" n arguments.length)) m
  | builtin {b : Builtin} {arguments : List Value} {s : ScopeId} {m m' : Machine}
      {r : Except Stop Value} :
      (∀ n, b.primitive.arity = some n → arguments.length = n) →
      (b.apply arguments).run m = (r, m') → Runs limited (.call (.builtin b) arguments) s m r m'
  | closureArity {id : ClosureId} {c : Closure} {arguments : List Value} {s : ScopeId}
      {m : Machine} :
      m.heap.closures[id]? = some c → arguments.length ≠ c.parameters.length →
      Runs limited (.call (.closure id) arguments) s m
        (raised (.wrongArity (Heap.displayClosure c) c.parameters.length arguments.length)) m
  | closure {id : ClosureId} {c : Closure} {arguments : List Value} {s : ScopeId}
      {m m' : Machine} {r : Except Stop Value} :
      m.heap.closures[id]? = some c → arguments.length = c.parameters.length →
      Runs limited (.expression c.body) m.forest.size (m.enter c arguments) r m' →
      Runs limited (.call (.closure id) arguments) s m r m'
  | notFunction {f : Value} {arguments : List Value} {s : ScopeId} {m : Machine} :
      f.isCallable = false ∨ (∃ id, f = .closure id ∧ m.heap.closures[id]? = none) →
      Runs limited (.call f arguments) s m (raised .notCallable) m
  -- limits of the machine
  | tooDeep {e : Expr} {s : ScopeId} {m : Machine} :
      limited = true → Runs limited (.expression e) s m (.error (.fault .tooDeep)) m
  | tooLong {test body : Expr} {s : ScopeId} {m : Machine} :
      limited = true →
      Runs limited (.special (.loop test body)) s m (.error (.fault .tooLong)) m

/-- The big-step semantics of expressions: evaluation in a scope of a machine ends with a result
and leaves the machine in a state. -/
def BigStep (e : Expr) (scope : ScopeId) (m : Machine) (r : Except Stop Value) (m' : Machine) :
    Prop :=
  Runs false (.expression e) scope m r m'

end Egg
