import Egg.Proofs.BigStep
import Egg.Proofs.BuiltinEffect
import Mathlib.Data.List.Basic

namespace Egg

namespace Exec

theorem run_bind_cases {α β : Type} {a : Exec α} {f : α → Exec β} {m m' : Machine}
    {r : Except Stop β} (h : (a >>= f).run m = (r, m')) :
    (∃ x m₁, a.run m = (.ok x, m₁) ∧ (f x).run m₁ = (r, m')) ∨
      ∃ stop, a.run m = (.error stop, m') ∧ r = .error stop := by
  rw [run_bind] at h
  rcases ha : a.run m with ⟨_ | x, m₁⟩
  · rw [ha] at h
    cases h
    exact .inr ⟨_, rfl, rfl⟩
  · rw [ha] at h
    exact .inl ⟨x, m₁, rfl, h⟩

theorem run_bind_ok {α β : Type} {a : Exec α} {m m₁ : Machine} {x : α} (f : α → Exec β)
    (h : a.run m = (.ok x, m₁)) : (a >>= f).run m = (f x).run m₁ := by
  rw [run_bind, h]

theorem run_bind_error {α β : Type} {a : Exec α} {m m₁ : Machine} {stop : Stop} (f : α → Exec β)
    (h : a.run m = (.error stop, m₁)) : (a >>= f).run m = (.error stop, m₁) := by
  rw [run_bind, h]

theorem run_lookup (s : ScopeId) (x : String) (m : Machine) :
    (lookup s x).run m = match m.forest.lookup? s x with
      | some v => (.ok v, m)
      | none => (raised (.undefined x), m) := by
  rw [lookup, run_bind]
  change (match m.forest.lookup? s x with | some v => _ | none => _ : Exec Value).run m = _
  cases m.forest.lookup? s x <;> rfl

theorem run_assign (s : ScopeId) (x : String) (v : Value) (m : Machine) :
    (assign s x v).run m = match m.forest.owner? s x with
      | some owner => (.ok (), m.set owner x v)
      | none => (.error (.raised ⟨.unassignable x, none⟩), m) := by
  rw [assign, run_bind]
  change (match m.forest.owner? s x with | some v => _ | none => _ : Exec Unit).run m = _
  cases m.forest.owner? s x <;> rfl

theorem run_display {v : Value} {text : String} {m : Machine} (h : m.heap.display v = .ok text) :
    (display v).run m = (.ok text, m) := by
  change (ofFault (m.heap.display v)).run m = _
  rw [h]
  rfl

theorem run_display_builtin (b : Builtin) (m : Machine) :
    (display (.builtin b)).run m = (.ok s!"<builtin {b.name}>", m) :=
  run_display (by rw [Heap.display, Heap.displayBelow])

theorem run_display_closure {id : ClosureId} {c : Closure} {m : Machine}
    (h : m.heap.closures[id]? = some c) :
    (display (.closure id)).run m = (.ok (Heap.displayClosure c), m) :=
  run_display (by rw [Heap.display, Heap.displayBelow, h]; rfl)

end Exec

open Exec

theorem Builtin.apply_of_arity_ne {b : Builtin} {n : Nat} {arguments : List Value}
    (harity : b.primitive.arity = some n) (hlength : arguments.length ≠ n) :
    b.apply arguments = display (.builtin b) >>= fun callee =>
      raise (.wrongArity callee n arguments.length) := by
  obtain ⟨name, primitive, serial⟩ := b
  rcases arguments with _ | ⟨x, _ | ⟨y, _ | ⟨z, rest⟩⟩⟩ <;> cases primitive <;> cases harity <;>
    first | rfl | exact absurd rfl hlength

theorem Builtin.run_apply_of_arity_ne {b : Builtin} {n : Nat} {arguments : List Value}
    (harity : b.primitive.arity = some n) (hlength : arguments.length ≠ n) (m : Machine) :
    (b.apply arguments).run m =
      (raised (.wrongArity s!"<builtin {b.name}>" n arguments.length), m) := by
  rw [apply_of_arity_ne harity hlength, run_bind_ok _ (run_display_builtin b m)]
  rfl

theorem run_call_id (eval : Evaluator) (id : ClosureId) (arguments : List Value) (m : Machine) :
    (call eval (.closure id) arguments).run m =
      (match m.heap.closures[id]? with
        | some c => c.apply eval id arguments
        | none => raise .notCallable : Exec Value).run m := rfl

theorem run_call_closure {eval : Evaluator} {id : ClosureId} {c : Closure}
    {arguments : List Value} {m : Machine} (hc : m.heap.closures[id]? = some c) :
    (call eval (.closure id) arguments).run m =
      if arguments.length = c.parameters.length then
        (eval c.body m.forest.size).run (m.enter c arguments)
      else
        (raised (.wrongArity (Heap.displayClosure c) c.parameters.length arguments.length), m) := by
  rw [run_call_id, hc]
  change (c.apply eval id arguments).run m = _
  rw [Closure.apply]
  split
  · rfl
  · rw [run_bind_ok _ (run_display_closure hc)]
    rfl

theorem run_call_notFunction {eval : Evaluator} {f : Value} {arguments : List Value} {m : Machine}
    (h : f.isCallable = false ∨ ∃ id, f = .closure id ∧ m.heap.closures[id]? = none) :
    (call eval f arguments).run m = (raised .notCallable, m) := by
  rcases h with h | ⟨id, rfl, hnone⟩
  · cases f with
    | closure id => cases h
    | builtin b => cases h
    | bool b => rfl
    | number n => rfl
    | string t => rfl
    | array id => rfl
  · rw [run_call_id, hnone]
    rfl

theorem evalArguments_cons_bind (eval : Evaluator) (s : ScopeId) (e : Expr) (es : List Expr)
    (f : List Value → Exec Value) :
    evalArguments eval s (e :: es) >>= f =
      eval e s >>= fun v => evalArguments eval s es >>= fun vs => f (v :: vs) := by
  simp [evalArguments]

/-- The ends of a run that only a limit of the machine explains. -/
def Stop.isLimit : Stop → Bool
  | .fault .tooDeep | .fault .tooLong => true
  | _ => false

/-- A result that rules with or without limits can have. -/
def Allowed (limited : Bool) (r : Except Stop Value) : Prop :=
  ∀ stop, r = .error stop → stop.isLimit = true → limited = true

theorem Stop.isLimit_locate (p : Option Position) (stop : Stop) :
    (stop.locate p).isLimit = stop.isLimit := by
  unfold Stop.locate
  split <;> rfl

section Allowed

variable {limited : Bool}

theorem allowed_ok (v : Value) : Allowed limited (.ok v) := by
  rintro stop h
  cases h

theorem allowed_of_isLimit_eq_false {stop : Stop} (hstop : stop.isLimit = false) :
    Allowed limited (.error stop) := by
  rintro stop' h hlimit
  cases h
  rw [hstop] at hlimit
  cases hlimit

theorem allowed_mapError_iff {p : Option Position} {r : Except Stop Value} :
    Allowed limited (r.mapError (Stop.locate p)) ↔ Allowed limited r := by
  cases r with
  | ok v => exact Iff.rfl
  | error stop =>
      constructor
      · rintro h _ ⟨⟩ hlimit
        exact h _ rfl (by rw [Stop.isLimit_locate, hlimit])
      · rintro h _ ⟨⟩ hlimit
        exact h _ rfl (by rw [← hlimit, Stop.isLimit_locate])

theorem Builtin.Effect.allowed {arguments : List Value} {m m' : Machine} {r : Except Stop Value}
    (h : Builtin.Effect arguments m (r, m')) : Allowed limited r := by
  cases h with
  | plain => exact allowed_ok _
  | item => exact allowed_ok _
  | array => exact allowed_ok _
  | print => exact allowed_ok _
  | raise => exact allowed_of_isLimit_eq_false rfl
  | overflow => exact allowed_of_isLimit_eq_false rfl

theorem Runs.allowed {task : Task} {s : ScopeId} {m m' : Machine} {r : Except Stop Value}
    (h : Runs limited task s m r m') : Allowed limited r := by
  induction h with
  | located _ ih => exact allowed_mapError_iff.mpr ih
  | builtin _ hrun => exact Builtin.Effect.allowed (hrun ▸ Builtin.effect_apply _ _ _)
  | tooDeep h => exact fun _ _ _ => h
  | tooLong h => exact fun _ _ _ => h
  | literal | name | loopEnd | sequenceEnd | define | assign | function => exact allowed_ok _
  | undefined | foreign | misshapen | unassignable | notCallable | builtinArity | closureArity
  | notFunction => exact allowed_of_isLimit_eq_false rfl
  | stop _ _ ih | form _ _ ih | sequence _ ih | operandsEnd _ ih | closure _ _ _ ih => exact ih
  | conditionalYes _ _ _ _ ih | conditionalNo _ _ _ ih | loopRound _ _ _ _ ih | round _ _ _ ih
  | sequenceNext _ _ _ ih | application _ _ _ _ _ ih | operand _ _ _ ih => exact ih

end Allowed

theorem Value.isTruthy_iff {v : Value} : v.isTruthy = true ↔ v ≠ .bool false := by
  cases v with
  | bool b => cases b <;> simp [Value.isTruthy]
  | number n => simp [Value.isTruthy]
  | string t => simp [Value.isTruthy]
  | array id => simp [Value.isTruthy]
  | closure id => simp [Value.isTruthy]
  | builtin b => simp [Value.isTruthy]

theorem Value.isTruthy_eq_false_iff {v : Value} : v.isTruthy = false ↔ v = .bool false := by
  rw [← Bool.not_eq_true, Value.isTruthy_iff, not_not]

/-- Every run of an evaluator follows the rules. -/
def Follows (limited : Bool) (eval : Evaluator) : Prop :=
  ∀ (e : Expr) (s : ScopeId) (m m' : Machine) (r : Except Stop Value),
    (eval e s).run m = (r, m') → Allowed limited r → Runs limited (.expression e) s m r m'

namespace Follows

variable {limited : Bool} {eval : Evaluator} {s : ScopeId} {m m' : Machine} {r : Except Stop Value}

theorem bind (heval : Follows limited eval) {task : Task} {e : Expr} (hbegins : task.Begins e)
    {f : Value → Exec Value} (h : (eval e s >>= f).run m = (r, m')) (hr : Allowed limited r)
    (hnext : ∀ v m₁, Runs limited (.expression e) s m (.ok v) m₁ → (f v).run m₁ = (r, m') →
      Runs limited task s m r m') :
    Runs limited task s m r m' := by
  rcases run_bind_cases h with ⟨v, m₁, he, hf⟩ | ⟨stop, he, rfl⟩
  · exact hnext v m₁ (heval e s m m₁ (.ok v) he (allowed_ok v)) hf
  · exact .stop hbegins (heval e s m m' (.error stop) he hr)

theorem sequence (heval : Follows limited eval) {v : Value} {es : List Expr}
    (h : (evalSequence eval s v es).run m = (r, m')) (hr : Allowed limited r) :
    Runs limited (.sequence v es) s m r m' := by
  induction es generalizing v m with
  | nil =>
      cases h
      exact .sequenceEnd
  | cons e es ih =>
      exact heval.bind .sequence h hr fun w m₁ he hes => .sequenceNext he (ih hes)

theorem loop (heval : Follows limited eval) {test body : Expr} {rounds : Nat}
    (h : (whileTrue (eval test s) (eval body s) rounds).run m = (r, m')) (hr : Allowed limited r) :
    Runs limited (.special (.loop test body)) s m r m' := by
  -- each round of the loop is one unfolding of the rule for it
  induction rounds generalizing m with
  | zero =>
      cases h
      exact .tooLong (hr _ rfl rfl)
  | succ rounds ih =>
      refine heval.bind .loop h hr fun v m₁ htest hrest => ?_
      cases hv : v.isTruthy with
      | false =>
          rw [hv] at hrest
          cases hrest
          rw [Value.isTruthy_eq_false_iff.mp hv] at htest
          exact .loopEnd htest
      | true =>
          rw [hv] at hrest
          refine .loopRound htest (Value.isTruthy_iff.mp hv) ?_
          exact heval.bind .round hrest hr fun w m₂ hbody hagain => .round hbody (ih hagain)

theorem call (heval : Follows limited eval) {f : Value} {arguments : List Value}
    (h : (Egg.call eval f arguments).run m = (r, m')) (hr : Allowed limited r) :
    Runs limited (.call f arguments) s m r m' := by
  by_cases hf : f.isCallable = false ∨ ∃ id, f = .closure id ∧ m.heap.closures[id]? = none
  · rw [run_call_notFunction hf] at h
    cases h
    exact .notFunction hf
  · push Not at hf
    cases f with
    | closure id =>
        obtain ⟨c, hc⟩ := Option.ne_none_iff_exists'.mp (hf.2 id rfl)
        rw [run_call_closure hc] at h
        split at h
        · rename_i hlength
          exact .closure hc hlength (heval _ _ _ _ _ h hr)
        · rename_i hlength
          cases h
          exact .closureArity hc hlength
    | builtin b =>
        by_cases harity : ∀ n, b.primitive.arity = some n → arguments.length = n
        · exact .builtin harity h
        · push Not at harity
          obtain ⟨n, harity, hlength⟩ := harity
          change (b.apply arguments).run m = (r, m') at h
          rw [Builtin.run_apply_of_arity_ne harity hlength] at h
          cases h
          exact .builtinArity harity hlength
    | bool b => exact absurd rfl hf.1
    | number n => exact absurd rfl hf.1
    | string t => exact absurd rfl hf.1
    | array id => exact absurd rfl hf.1

theorem operands (heval : Follows limited eval) {f : Value} {done : List Value} {es : List Expr}
    (h : (evalArguments eval s es >>= fun vs => Egg.call eval f (done ++ vs)).run m = (r, m'))
    (hr : Allowed limited r) : Runs limited (.operands f done es) s m r m' := by
  induction es generalizing done m with
  | nil =>
      rw [evalArguments, pure_bind, List.append_nil] at h
      exact .operandsEnd (heval.call h hr)
  | cons e es ih =>
      rw [evalArguments_cons_bind] at h
      refine heval.bind .operand h hr fun v m₁ he hes => .operand he (ih ?_)
      simpa using hes

theorem special (heval : Follows limited eval) {special : Special} {rounds : Nat}
    (h : (special.eval eval rounds s).run m = (r, m')) (hr : Allowed limited r) :
    Runs limited (.special special) s m r m' := by
  cases special with
  | conditional test yes no =>
      refine heval.bind .conditional h hr fun v m₁ htest hbranch => ?_
      cases hv : v.isTruthy with
      | false =>
          rw [hv] at hbranch
          rw [Value.isTruthy_eq_false_iff.mp hv] at htest
          exact .conditionalNo htest (heval _ _ _ _ _ hbranch hr)
      | true =>
          rw [hv] at hbranch
          exact .conditionalYes htest (Value.isTruthy_iff.mp hv) (heval _ _ _ _ _ hbranch hr)
  | loop test body => exact heval.loop h hr
  | sequence body => exact .sequence (heval.sequence h hr)
  | define x o e =>
      refine heval.bind .define h hr fun v m₁ he hrest => ?_
      cases hrest
      exact .define he
  | assign x e =>
      refine heval.bind .assign h hr fun v m₁ he hrest => ?_
      rw [run_bind, run_assign] at hrest
      cases howner : m₁.forest.owner? s x with
      | none =>
          rw [howner] at hrest
          cases hrest
          exact .unassignable he howner
      | some owner =>
          rw [howner] at hrest
          cases hrest
          exact .assign he howner
  | function names body =>
      cases h
      exact .function

theorem node (heval : Follows limited eval) {e : Expr} {rounds : Nat}
    (h : (evalStep eval rounds e s).run m = (r, m')) (hr : Allowed limited r) :
    Runs limited (.node e) s m r m' := by
  cases e with
  | literal v p =>
      cases h
      exact .literal
  | name x o p =>
      rw [evalStep, run_lookup] at h
      cases hlookup : m.forest.lookup? s x with
      | none =>
          rw [hlookup] at h
          cases h
          exact .undefined hlookup
      | some v =>
          rw [hlookup] at h
          cases h
          exact .name hlookup
  | apply f es p =>
      rw [evalStep] at h
      cases hform : f.form? with
      | some form =>
          obtain ⟨o, q, rfl⟩ := Expr.form?_eq_some_iff.mp hform
          rw [hform] at h
          cases hshape : form.shape es with
          | ok special =>
              simp only [hshape] at h
              exact .form (Form.shape_eq_ok_iff.mp hshape) (heval.special h hr)
          | error error =>
              simp only [hshape] at h
              cases h
              exact .misshapen (Form.shape_eq_error_iff.mp hshape)
      | none =>
          have hplain := Expr.form?_eq_none_iff.mp hform
          rw [hform] at h
          refine heval.bind (.operator hplain) h hr fun v m₁ hf hrest => ?_
          cases hv : v.isCallable with
          | false =>
              rw [hv] at hrest
              cases hrest
              exact .notCallable hplain hf hv
          | true =>
              rw [hv] at hrest
              exact .application hplain hf hv (heval.operands hrest hr)
  | foreign thing =>
      cases h
      exact .foreign

end Follows

theorem follows_eval (limited : Bool) (rounds depth : Nat) :
    Follows limited (eval rounds depth) := by
  -- the evaluator of the sub-expressions is the same one with less depth
  induction depth with
  | zero =>
      intro e s m m' r h hr
      cases h
      exact .tooDeep (hr _ rfl rfl)
  | succ depth ih =>
      intro e s m m' r h hr
      rw [eval, run_locate] at h
      rcases hnode : (evalStep (eval rounds depth) rounds e s).run m with ⟨stop | v, m₁⟩
      · rw [hnode] at h
        cases h
        exact .located (ih.node hnode (allowed_mapError_iff.mp hr))
      · rw [hnode] at h
        cases h
        exact .located (ih.node hnode hr)

/-- How an evaluator carries out a task, where a loop may go round a number of times. -/
def Task.exec (eval : Evaluator) (rounds : Nat) (s : ScopeId) : Task → Exec Value
  | .expression e => eval e s
  | .node e => evalStep eval rounds e s
  | .special form => form.eval eval rounds s
  | .round test body => eval body s >>= fun _ => whileTrue (eval test s) (eval body s) rounds
  | .sequence v es => evalSequence eval s v es
  | .operands f done es => evalArguments eval s es >>= fun vs => Egg.call eval f (done ++ vs)
  | .call f arguments => Egg.call eval f arguments

theorem Task.Begins.exec_eq_bind {task : Task} {e : Expr} (h : task.Begins e) (eval : Evaluator)
    (rounds : Nat) (s : ScopeId) :
    ∃ f, task.exec eval (rounds + 1) s = eval e s >>= f := by
  cases h with
  | conditional => exact ⟨_, rfl⟩
  | loop => exact ⟨_, rfl⟩
  | round => exact ⟨_, rfl⟩
  | sequence => exact ⟨_, rfl⟩
  | define => exact ⟨_, rfl⟩
  | assign => exact ⟨_, rfl⟩
  | operator hplain =>
      simp only [Task.exec, evalStep, Expr.form?_eq_none_iff.mpr hplain]
      exact ⟨_, rfl⟩
  | operand => exact ⟨_, evalArguments_cons_bind _ _ _ _ _⟩

/-- The limits of a run are at least a number. -/
structure Enough (n rounds depth left : Nat) : Prop where
  rounds : n ≤ rounds
  depth : n ≤ depth
  left : n ≤ left

namespace Enough

variable {n n' rounds depth left : Nat}

theorem mono (h : Enough n rounds depth left) (hle : n' ≤ n) : Enough n' rounds depth left :=
  ⟨Nat.le_trans hle h.rounds, Nat.le_trans hle h.depth, Nat.le_trans hle h.left⟩

theorem max_left (h : Enough (max n n') rounds depth left) : Enough n rounds depth left :=
  h.mono (Nat.le_max_left n n')

theorem max_right (h : Enough (max n n') rounds depth left) : Enough n' rounds depth left :=
  h.mono (Nat.le_max_right n n')

theorem exists_left (h : Enough (n + 1) rounds depth left) :
    ∃ left', left = left' + 1 ∧ Enough n rounds depth left' := by
  obtain ⟨left', rfl⟩ := Nat.exists_eq_add_of_le' h.left
  refine ⟨left' + n, by omega, ?_⟩
  exact ⟨Nat.le_of_succ_le h.rounds, Nat.le_of_succ_le h.depth, Nat.le_add_left n left'⟩

end Enough

/-- With large enough limits a task ends in a given way. -/
def Task.Settles (task : Task) (s : ScopeId) (m : Machine) (r : Except Stop Value) (m' : Machine) :
    Prop :=
  ∃ n, ∀ rounds depth left, Enough n rounds depth left →
    (task.exec (eval rounds depth) left s).run m = (r, m')

namespace Task.Settles

variable {task next : Task} {e : Expr} {v : Value} {s s' : ScopeId} {m m' m₁ m₂ : Machine}
  {r : Except Stop Value}

theorem now (h : ∀ eval left, (task.exec eval left s).run m = (r, m')) : task.Settles s m r m' :=
  ⟨0, fun rounds depth left _ => h (eval rounds depth) left⟩

theorem of_run_eq (hnext : next.Settles s' m₁ r m')
    (h : ∀ eval left, (task.exec eval left s).run m = (next.exec eval left s').run m₁) :
    task.Settles s m r m' := by
  obtain ⟨n, hn⟩ := hnext
  exact ⟨n, fun rounds depth left hle => (h _ left).trans (hn rounds depth left hle)⟩

theorem locate (h : (Task.node e).Settles s m r m') :
    (Task.expression e).Settles s m (r.mapError (Stop.locate e.position)) m' := by
  obtain ⟨n, hn⟩ := h
  refine ⟨n + 1, fun rounds depth left hle => ?_⟩
  obtain ⟨depth, rfl⟩ := Nat.exists_eq_add_of_le' hle.depth
  have hrounds := Nat.le_of_succ_le hle.rounds
  have hnode : (evalStep (eval rounds (depth + n)) rounds e s).run m = (r, m') :=
    hn rounds (depth + n) rounds ⟨hrounds, Nat.le_add_left n depth, hrounds⟩
  change (Exec.locate e.position (evalStep (eval rounds (depth + n)) rounds e s)).run m = _
  rw [run_locate, hnode]
  cases r <;> rfl

theorem stop {stop : Stop} (h : (Task.expression e).Settles s m (.error stop) m')
    (hbegins : task.Begins e) : task.Settles s m (.error stop) m' := by
  obtain ⟨n, hn⟩ := h
  refine ⟨n + 1, fun rounds depth left hle => ?_⟩
  obtain ⟨left, rfl, hleft⟩ := hle.exists_left
  obtain ⟨f, hf⟩ := hbegins.exec_eq_bind (eval rounds depth) left s
  rw [hf]
  exact run_bind_error f (hn rounds depth left hleft)

theorem finish (h : (Task.expression e).Settles s m (.ok v) m₁)
    (htask : ∀ eval left, ∃ f, task.exec eval (left + 1) s = eval e s >>= f ∧
      (f v).run m₁ = (r, m')) : task.Settles s m r m' := by
  obtain ⟨n, hn⟩ := h
  refine ⟨n + 1, fun rounds depth left hle => ?_⟩
  obtain ⟨left, rfl, hleft⟩ := hle.exists_left
  obtain ⟨f, hf, hrun⟩ := htask (eval rounds depth) left
  rw [hf]
  exact (run_bind_ok f (hn rounds depth left hleft)).trans hrun

theorem bind (h : (Task.expression e).Settles s m (.ok v) m₁) (hnext : next.Settles s m₁ r m₂)
    (htask : ∀ eval left, ∃ f, task.exec eval (left + 1) s = eval e s >>= f ∧
      f v = next.exec eval left s) : task.Settles s m r m₂ := by
  obtain ⟨n₁, h⟩ := h
  obtain ⟨n₂, hnext⟩ := hnext
  refine ⟨max n₁ n₂ + 1, fun rounds depth left hle => ?_⟩
  obtain ⟨left, rfl, hleft⟩ := hle.exists_left
  obtain ⟨f, hf, hv⟩ := htask (eval rounds depth) left
  rw [hf]
  refine (run_bind_ok f (h rounds depth left hleft.max_left)).trans ?_
  rw [hv]
  exact hnext rounds depth left hleft.max_right

end Task.Settles

/-- With large enough limits a task is carried out as the rules of the language say. -/
theorem Runs.settles {task : Task} {s : ScopeId} {m m' : Machine} {r : Except Stop Value}
    (h : Runs false task s m r m') : task.Settles s m r m' := by
  induction h with
  | located _ ih => exact ih.locate
  | stop hbegins _ ih => exact ih.stop hbegins
  | literal => exact .now fun _ _ => rfl
  | name hlookup =>
      refine .now fun eval left => ?_
      rw [Task.exec, evalStep, run_lookup, hlookup]
  | undefined hlookup =>
      refine .now fun eval left => ?_
      rw [Task.exec, evalStep, run_lookup, hlookup]
  | foreign => exact .now fun _ _ => rfl
  | @misshapen form o q p es error s m hmisshapen =>
      refine .now fun eval left => ?_
      rw [Task.exec, evalStep, Expr.form?_eq_some_iff.mpr ⟨o, q, rfl⟩]
      simp only [Form.shape_of_misshapen hmisshapen]
      rfl
  | @form form o q p es special s m m' r hshaped _ ih =>
      refine ih.of_run_eq fun eval left => ?_
      rw [Task.exec, evalStep, Expr.form?_eq_some_iff.mpr ⟨o, q, rfl⟩]
      simp only [Form.shape_of_shaped hshaped]
      rfl
  | conditionalYes _ hv _ ihTest ihYes =>
      refine ihTest.bind ihYes fun eval left => ⟨_, rfl, ?_⟩
      rw [Value.isTruthy_iff.mpr hv]
      rfl
  | conditionalNo _ _ ihTest ihNo => exact ihTest.bind ihNo fun _ _ => ⟨_, rfl, rfl⟩
  | loopEnd _ ih => exact ih.finish fun _ _ => ⟨_, rfl, rfl⟩
  | loopRound _ hv _ ihTest ihRound =>
      refine ihTest.bind ihRound fun eval left => ⟨_, rfl, ?_⟩
      rw [Value.isTruthy_iff.mpr hv]
      rfl
  | round _ _ ihBody ihLoop =>
      -- the test of the loop has taken the round off already
      obtain ⟨n₁, ihBody⟩ := ihBody
      obtain ⟨n₂, ihLoop⟩ := ihLoop
      refine ⟨max n₁ n₂, fun rounds depth left hn => ?_⟩
      refine (run_bind_ok _ (ihBody rounds depth left hn.max_left)).trans ?_
      exact ihLoop rounds depth left hn.max_right
  | sequence _ ih => exact ih.of_run_eq fun _ _ => rfl
  | sequenceEnd => exact .now fun _ _ => rfl
  | sequenceNext _ _ ihFirst ihRest => exact ihFirst.bind ihRest fun _ _ => ⟨_, rfl, rfl⟩
  | define _ ih => exact ih.finish fun _ _ => ⟨_, rfl, rfl⟩
  | assign _ howner ih =>
      refine ih.finish fun eval left => ⟨_, rfl, ?_⟩
      rw [run_bind, run_assign, howner]
      rfl
  | unassignable _ howner ih =>
      refine ih.finish fun eval left => ⟨_, rfl, ?_⟩
      rw [run_bind, run_assign, howner]
      rfl
  | function => exact .now fun _ _ => rfl
  | notCallable hplain _ hv ih =>
      refine ih.finish fun eval left => ?_
      rw [Task.exec, evalStep, Expr.form?_eq_none_iff.mpr hplain]
      refine ⟨_, rfl, ?_⟩
      rw [hv]
      rfl
  | application hplain _ hv _ ihOperator ihOperands =>
      refine ihOperator.bind ihOperands fun eval left => ?_
      rw [Task.exec, evalStep, Expr.form?_eq_none_iff.mpr hplain]
      refine ⟨_, rfl, ?_⟩
      rw [hv]
      rfl
  | operand _ _ ihFirst ihRest =>
      refine ihFirst.bind ihRest fun eval left => ?_
      rw [Task.exec, evalArguments_cons_bind]
      exact ⟨_, rfl, by simp [Task.exec]⟩
  | operandsEnd _ ih =>
      refine ih.of_run_eq fun eval left => ?_
      rw [Task.exec, evalArguments, pure_bind, List.append_nil]
      rfl
  | builtinArity harity hlength =>
      exact .now fun _ _ => Builtin.run_apply_of_arity_ne harity hlength _
  | builtin _ hrun => exact .now fun _ _ => hrun
  | closureArity hc hlength =>
      exact .now fun _ _ => (run_call_closure hc).trans (if_neg hlength)
  | closure hc hlength _ ih =>
      exact ih.of_run_eq fun _ _ => (run_call_closure hc).trans (if_pos hlength)
  | notFunction hf => exact .now fun _ _ => run_call_notFunction hf
  | tooDeep h => cases h
  | tooLong h => cases h

theorem Runs.deterministic {task : Task} {s : ScopeId} {m m₁ m₂ : Machine}
    {r₁ r₂ : Except Stop Value} (h₁ : Runs false task s m r₁ m₁) (h₂ : Runs false task s m r₂ m₂) :
    r₁ = r₂ ∧ m₁ = m₂ := by
  obtain ⟨n₁, h₁⟩ := h₁.settles
  obtain ⟨n₂, h₂⟩ := h₂.settles
  have hn : Enough (max n₁ n₂) (max n₁ n₂) (max n₁ n₂) (max n₁ n₂) :=
    ⟨Nat.le_refl _, Nat.le_refl _, Nat.le_refl _⟩
  have hboth := (h₁ _ _ _ hn.max_left).symm.trans (h₂ _ _ _ hn.max_right)
  exact Prod.mk.inj hboth

/-- Evaluation computes the big-step semantics. A run of the evaluator that is not cut off by a
limit ends as the rules derive, and what they derive is how evaluation ends under all limits that
are large enough. Where a sub-expression stops, the task that begins with it stops in the same way
and on the same machine. -/
theorem eval_iff_bigStep (e : Expr) (scope : ScopeId) (m : Machine) :
    (∀ r m', BigStep e scope m r m' ↔
      (∃ rounds depth, (eval rounds depth e scope).run m = (r, m')) ∧
        ∀ stop, r = .error stop → stop.isLimit = false) ∧
    (∀ r m', BigStep e scope m r m' →
      ∃ n, ∀ rounds depth, n ≤ rounds → n ≤ depth → (eval rounds depth e scope).run m = (r, m')) ∧
    ∀ task stop m', task.Begins e → BigStep e scope m (.error stop) m' →
      ∀ r m₁, Runs false task scope m r m₁ ↔ r = .error stop ∧ m₁ = m' := by
  have heventually : ∀ r m', BigStep e scope m r m' →
      ∃ n, ∀ rounds depth, n ≤ rounds → n ≤ depth →
        (eval rounds depth e scope).run m = (r, m') := by
    intro r m' h
    obtain ⟨n, hn⟩ := Runs.settles h
    exact ⟨n, fun rounds depth hrounds hdepth => hn rounds depth n ⟨hrounds, hdepth, Nat.le_refl n⟩⟩
  refine ⟨fun r m' => ⟨fun h => ⟨?_, fun stop hr => ?_⟩, ?_⟩, heventually, ?_⟩
  · obtain ⟨n, hn⟩ := heventually r m' h
    exact ⟨n, n, hn n n (Nat.le_refl n) (Nat.le_refl n)⟩
  · exact Bool.eq_false_iff.mpr fun hlimit => Bool.false_ne_true (h.allowed stop hr hlimit)
  · rintro ⟨⟨rounds, depth, hrun⟩, hr⟩
    refine follows_eval false rounds depth e scope m m' r hrun fun stop hstop hlimit => ?_
    exact absurd hlimit (Bool.eq_false_iff.mp (hr stop hstop))
  · rintro task stop m' hbegins h r m₁
    constructor
    · exact fun hr => hr.deterministic (.stop hbegins h)
    · rintro ⟨rfl, rfl⟩
      exact .stop hbegins h

end Egg
