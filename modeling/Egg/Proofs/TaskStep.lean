import Egg.Proofs.BigStep
import Mathlib.Logic.Relation

/-!
The rules of the big-step semantics, grouped by what they make of a task. A task turns into
another one at once, begins with a sub-expression, goes on or finishes with its value, enters the
body of a closure, or ends without evaluating anything. An induction over runs has one case for
each group, and the moments that a run passes through are those that the groups lead to, whether
the run ever ends or not.
-/

namespace Egg

namespace Task

/-- What a task turns into at once. -/
inductive Becomes : Task → Task → Prop where
  | form {form : Form} {o : Origin} {q p : Option Position} {es : List Expr} {special : Special} :
      Shaped form es special →
      Becomes (.node (.apply (.name form.word o q) es p)) (.special special)
  | sequence {es : List Expr} : Becomes (.special (.sequence es)) (.sequence (.bool false) es)
  | call {f : Value} {done : List Value} : Becomes (.operands f done []) (.call f done)

/-- What is left of a task once the sub-expression that it begins with has given a value. -/
inductive Proceeds : Task → Value → Task → Prop where
  | yes {test yes no : Expr} {v : Value} :
      v ≠ .bool false → Proceeds (.special (.conditional test yes no)) v (.expression yes)
  | no {test yes no : Expr} :
      Proceeds (.special (.conditional test yes no)) (.bool false) (.expression no)
  | loop {test body : Expr} {v : Value} :
      v ≠ .bool false → Proceeds (.special (.loop test body)) v (.round test body)
  | round {test body : Expr} {v : Value} :
      Proceeds (.round test body) v (.special (.loop test body))
  | sequence {v w : Value} {e : Expr} {es : List Expr} :
      Proceeds (.sequence v (e :: es)) w (.sequence w es)
  | operator {f : Expr} {es : List Expr} {p : Option Position} {v : Value} :
      (∀ form : Form, f.word? ≠ some form.word) → v.isCallable = true →
      Proceeds (.node (.apply f es p)) v (.operands v [] es)
  | operand {f v : Value} {done : List Value} {e : Expr} {es : List Expr} :
      Proceeds (.operands f done (e :: es)) v (.operands f (done ++ [v]) es)

/-- How a task ends once the sub-expression that it begins with has given a value. -/
inductive Finishes (s : ScopeId) (m : Machine) :
    Task → Value → Except Stop Value → Machine → Prop where
  | loop {test body : Expr} :
      Finishes s m (.special (.loop test body)) (.bool false) (.ok (.bool false)) m
  | define {x : String} {o : Origin} {e : Expr} {v : Value} :
      Finishes s m (.special (.define x o e)) v (.ok v) (m.define s x o v)
  | assign {x : String} {e : Expr} {v : Value} {owner : ScopeId} :
      m.forest.owner? s x = some owner →
      Finishes s m (.special (.assign x e)) v (.ok v) (m.set owner x v)
  | unassignable {x : String} {e : Expr} {v : Value} :
      m.forest.owner? s x = none →
      Finishes s m (.special (.assign x e)) v (raised (.unassignable x)) m
  | notCallable {f : Expr} {es : List Expr} {p : Option Position} {v : Value} :
      (∀ form : Form, f.word? ≠ some form.word) → v.isCallable = false →
      Finishes s m (.node (.apply f es p)) v (raised .notCallable) m

/-- How a task ends that evaluates nothing. -/
inductive Ends (limited : Bool) (s : ScopeId) (m : Machine) :
    Task → Except Stop Value → Machine → Prop where
  | literal {v : Value} {p : Option Position} : Ends limited s m (.node (.literal v p)) (.ok v) m
  | name {x : String} {o : Origin} {p : Option Position} {v : Value} :
      m.forest.lookup? s x = some v → Ends limited s m (.node (.name x o p)) (.ok v) m
  | undefined {x : String} {o : Origin} {p : Option Position} :
      m.forest.lookup? s x = none →
      Ends limited s m (.node (.name x o p)) (raised (.undefined x)) m
  | foreign {thing : Foreign} :
      Ends limited s m (.node (.foreign thing)) (.error (.fault (.notExpression thing))) m
  | misshapen {form : Form} {o : Origin} {q p : Option Position} {es : List Expr} {error : Error} :
      Misshapen form es error →
      Ends limited s m (.node (.apply (.name form.word o q) es p)) (.error (.raised error)) m
  | sequence {v : Value} : Ends limited s m (.sequence v []) (.ok v) m
  | function {names : List String} {body : Expr} :
      Ends limited s m (.special (.function names body)) (.ok (.closure m.heap.closures.size))
        (m.addClosure ⟨names, body, s⟩)
  | builtinArity {b : Builtin} {arguments : List Value} {n : Nat} :
      b.primitive.arity = some n → arguments.length ≠ n →
      Ends limited s m (.call (.builtin b) arguments)
        (raised (.wrongArity s!"<builtin {b.name}>" n arguments.length)) m
  | builtin {b : Builtin} {arguments : List Value} {m' : Machine} {r : Except Stop Value} :
      (∀ n, b.primitive.arity = some n → arguments.length = n) →
      (b.apply arguments).run m = (r, m') → Ends limited s m (.call (.builtin b) arguments) r m'
  | closureArity {id : ClosureId} {c : Closure} {arguments : List Value} :
      m.heap.closures[id]? = some c → arguments.length ≠ c.parameters.length →
      Ends limited s m (.call (.closure id) arguments)
        (raised (.wrongArity (Heap.displayClosure c) c.parameters.length arguments.length)) m
  | notFunction {f : Value} {arguments : List Value} :
      f.isCallable = false ∨ (∃ id, f = .closure id ∧ m.heap.closures[id]? = none) →
      Ends limited s m (.call f arguments) (raised .notCallable) m
  | tooDeep {e : Expr} :
      limited = true → Ends limited s m (.expression e) (.error (.fault .tooDeep)) m
  | tooLong {test body : Expr} :
      limited = true →
      Ends limited s m (.special (.loop test body)) (.error (.fault .tooLong)) m

end Task

section Rules

variable {limited : Bool} {task task' : Task} {e : Expr} {v : Value} {s : ScopeId}
  {m m₁ : Machine} {r : Except Stop Value} {m' : Machine}

theorem Task.Becomes.runs (h : task.Becomes task') (hruns : Runs limited task' s m r m') :
    Runs limited task s m r m' := by
  cases h with
  | form hshaped => exact .form hshaped hruns
  | sequence => exact .sequence hruns
  | call => exact .operandsEnd hruns

theorem Task.Proceeds.runs (h : task.Proceeds v task') (hbegins : task.Begins e)
    (hfirst : Runs limited (.expression e) s m (.ok v) m₁) (hrest : Runs limited task' s m₁ r m') :
    Runs limited task s m r m' := by
  cases h with
  | yes hv => cases hbegins; exact .conditionalYes hfirst hv hrest
  | no => cases hbegins; exact .conditionalNo hfirst hrest
  | loop hv => cases hbegins; exact .loopRound hfirst hv hrest
  | round => cases hbegins; exact .round hfirst hrest
  | sequence => cases hbegins; exact .sequenceNext hfirst hrest
  | operator hword hv => cases hbegins; exact .application hword hfirst hv hrest
  | operand => cases hbegins; exact .operand hfirst hrest

theorem Task.Finishes.runs (h : task.Finishes s m₁ v r m') (hbegins : task.Begins e)
    (hfirst : Runs limited (.expression e) s m (.ok v) m₁) : Runs limited task s m r m' := by
  cases h with
  | loop => cases hbegins; exact .loopEnd hfirst
  | define => cases hbegins; exact .define hfirst
  | assign howner => cases hbegins; exact .assign hfirst howner
  | unassignable howner => cases hbegins; exact .unassignable hfirst howner
  | notCallable hword hv => cases hbegins; exact .notCallable hword hfirst hv

theorem Task.Ends.runs (h : task.Ends limited s m r m') : Runs limited task s m r m' := by
  cases h with
  | literal => exact .literal
  | name hlookup => exact .name hlookup
  | undefined hlookup => exact .undefined hlookup
  | foreign => exact .foreign
  | misshapen h => exact .misshapen h
  | sequence => exact .sequenceEnd
  | function => exact .function
  | builtinArity harity hlength => exact .builtinArity harity hlength
  | builtin harity hrun => exact .builtin harity hrun
  | closureArity hc hlength => exact .closureArity hc hlength
  | notFunction h => exact .notFunction h
  | tooDeep h => exact .tooDeep h
  | tooLong h => exact .tooLong h

/-- Induction over the rules by what they make of a task. -/
theorem Runs.steps
    {motive : ∀ task s m r m', Runs limited task s m r m' → Prop}
    (located : ∀ {e : Expr} {s : ScopeId} {m m' : Machine} {r : Except Stop Value}
      (h : Runs limited (.node e) s m r m'), motive _ _ _ _ _ h → motive _ _ _ _ _ (.located h))
    (stop : ∀ {task : Task} {e : Expr} {s : ScopeId} {m m' : Machine} {stop : Stop}
      (hbegins : task.Begins e) (h : Runs limited (.expression e) s m (.error stop) m'),
      motive _ _ _ _ _ h → motive _ _ _ _ _ (.stop hbegins h))
    (becomes : ∀ {task task' : Task} {s : ScopeId} {m m' : Machine} {r : Except Stop Value}
      (hbecomes : task.Becomes task') (h : Runs limited task' s m r m'),
      motive _ _ _ _ _ h → motive _ _ _ _ _ (hbecomes.runs h))
    (proceeds : ∀ {task task' : Task} {e : Expr} {v : Value} {s : ScopeId} {m m₁ m' : Machine}
      {r : Except Stop Value} (hbegins : task.Begins e) (hproceeds : task.Proceeds v task')
      (h : Runs limited (.expression e) s m (.ok v) m₁) (h' : Runs limited task' s m₁ r m'),
      motive _ _ _ _ _ h → motive _ _ _ _ _ h' →
      motive _ _ _ _ _ (hproceeds.runs hbegins h h'))
    (finishes : ∀ {task : Task} {e : Expr} {v : Value} {s : ScopeId} {m m₁ m' : Machine}
      {r : Except Stop Value} (hbegins : task.Begins e) (hfinishes : task.Finishes s m₁ v r m')
      (h : Runs limited (.expression e) s m (.ok v) m₁),
      motive _ _ _ _ _ h → motive _ _ _ _ _ (hfinishes.runs hbegins h))
    (enter : ∀ {id : ClosureId} {c : Closure} {arguments : List Value} {s : ScopeId}
      {m m' : Machine} {r : Except Stop Value} (hc : m.heap.closures[id]? = some c)
      (hlength : arguments.length = c.parameters.length)
      (h : Runs limited (.expression c.body) m.forest.size (m.enter c arguments) r m'),
      motive _ _ _ _ _ h → motive _ s _ _ _ (.closure hc hlength h))
    (ends : ∀ {task : Task} {s : ScopeId} {m m' : Machine} {r : Except Stop Value}
      (hends : task.Ends limited s m r m'), motive _ _ _ _ _ hends.runs)
    (h : Runs limited task s m r m') : motive task s m r m' h := by
  induction h with
  | located h ih => exact located h ih
  | stop hbegins h ih => exact stop hbegins h ih
  | literal => exact ends .literal
  | name hlookup => exact ends (.name hlookup)
  | undefined hlookup => exact ends (.undefined hlookup)
  | foreign => exact ends .foreign
  | misshapen h => exact ends (.misshapen h)
  | form hshaped h ih => exact becomes (.form hshaped) h ih
  | conditionalYes h hv h' ih ih' => exact proceeds .conditional (.yes hv) h h' ih ih'
  | conditionalNo h h' ih ih' => exact proceeds .conditional .no h h' ih ih'
  | loopEnd h ih => exact finishes .loop .loop h ih
  | loopRound h hv h' ih ih' => exact proceeds .loop (.loop hv) h h' ih ih'
  | round h h' ih ih' => exact proceeds .round .round h h' ih ih'
  | sequence h ih => exact becomes .sequence h ih
  | sequenceEnd => exact ends .sequence
  | sequenceNext h h' ih ih' => exact proceeds .sequence .sequence h h' ih ih'
  | define h ih => exact finishes .define .define h ih
  | assign h howner ih => exact finishes .assign (.assign howner) h ih
  | unassignable h howner ih => exact finishes .assign (.unassignable howner) h ih
  | function => exact ends .function
  | notCallable hword h hv ih => exact finishes (.operator hword) (.notCallable hword hv) h ih
  | application hword h hv h' ih ih' =>
      exact proceeds (.operator hword) (.operator hword hv) h h' ih ih'
  | operand h h' ih ih' => exact proceeds .operand .operand h h' ih ih'
  | operandsEnd h ih => exact becomes .call h ih
  | builtinArity harity hlength => exact ends (.builtinArity harity hlength)
  | builtin harity hrun => exact ends (.builtin harity hrun)
  | closureArity hc hlength => exact ends (.closureArity hc hlength)
  | closure hc hlength h ih => exact enter hc hlength h ih
  | notFunction h => exact ends (.notFunction h)
  | tooDeep h => exact ends (.tooDeep h)
  | tooLong h => exact ends (.tooLong h)

end Rules

/-- A moment of a run: what is to be done, in which scope, and the state of the machine. -/
structure Moment where
  task : Task
  scope : ScopeId
  machine : Machine

namespace Moment

/-- The moments that a moment leads to. A moment behind a sub-expression comes only once that has
given a value; the moments inside it come before. -/
inductive Next : Moment → Moment → Prop where
  | node {e : Expr} {s : ScopeId} {m : Machine} : Next ⟨.expression e, s, m⟩ ⟨.node e, s, m⟩
  | becomes {task task' : Task} {s : ScopeId} {m : Machine} :
      task.Becomes task' → Next ⟨task, s, m⟩ ⟨task', s, m⟩
  | begins {task : Task} {e : Expr} {s : ScopeId} {m : Machine} :
      task.Begins e → Next ⟨task, s, m⟩ ⟨.expression e, s, m⟩
  | proceeds {task task' : Task} {e : Expr} {v : Value} {s : ScopeId} {m m' : Machine} :
      task.Begins e → BigStep e s m (.ok v) m' → task.Proceeds v task' →
      Next ⟨task, s, m⟩ ⟨task', s, m'⟩
  | enter {id : ClosureId} {c : Closure} {arguments : List Value} {s : ScopeId} {m : Machine} :
      m.heap.closures[id]? = some c → arguments.length = c.parameters.length →
      Next ⟨.call (.closure id) arguments, s, m⟩
        ⟨.expression c.body, m.forest.size, m.enter c arguments⟩

/-- The moments of the run that starts at a moment. -/
def Later : Moment → Moment → Prop :=
  Relation.ReflTransGen Next

end Moment

end Egg
