import Egg.Proofs.FreshRun

namespace Egg

namespace Machine

/-- That a machine has printed the beginning of what another one has. -/
def Prints (m m' : Machine) : Prop :=
  ∃ text, m'.output = m.output ++ text

variable {m m₁ m₂ : Machine}

theorem prints_of_output_eq (h : m₁.output = m.output) : m.Prints m₁ :=
  ⟨"", by rw [h, String.append_empty]⟩

theorem Prints.trans (h₁ : m.Prints m₁) (h₂ : m₁.Prints m₂) : m.Prints m₂ := by
  obtain ⟨text₁, h₁⟩ := h₁
  obtain ⟨text₂, h₂⟩ := h₂
  exact ⟨text₁ ++ text₂, by rw [h₂, h₁, String.append_assoc]⟩

end Machine

section Runs

variable {limited : Bool} {task : Task} {s : ScopeId} {m m' : Machine} {r : Except Stop Value}

theorem Builtin.Effect.prints {arguments : List Value}
    (h : Builtin.Effect arguments m (r, m')) : m.Prints m' := by
  cases h with
  | print => exact ⟨_, rfl⟩
  | plain | item | array | raise | overflow => exact Machine.prints_of_output_eq rfl

theorem Runs.prints (h : Runs limited task s m r m') : m.Prints m' := by
  induction h using Runs.steps with
  | located _ ih | stop _ _ ih | becomes _ _ ih => exact ih
  | proceeds _ _ _ _ ih ih' => exact ih.trans ih'
  | finishes _ hfinishes _ ih =>
      refine ih.trans (Machine.prints_of_output_eq ?_)
      cases hfinishes <;> rfl
  | enter _ _ _ ih => exact (Machine.prints_of_output_eq rfl).trans ih
  | ends hends =>
      cases hends with
      | builtin _ hrun => exact Builtin.Effect.prints (hrun ▸ Builtin.effect_apply _ _ _)
      | literal | name | undefined | foreign | misshapen | sequence | function | builtinArity
      | closureArity | notFunction | tooDeep | tooLong => exact Machine.prints_of_output_eq rfl

/-- The kind of the error that a run stops with, if it stops with one. -/
def Stop.kind? : Stop → Option Error.Kind
  | .raised error => some error.cause.kind
  | _ => none

@[simp] theorem Stop.kind?_locate (p : Option Position) (stop : Stop) :
    (stop.locate p).kind? = stop.kind? := by
  unfold Stop.locate
  split <;> rfl

theorem Builtin.Effect.kind?_ne_runtime {arguments : List Value} {stop : Stop}
    (h : Builtin.Effect arguments m (.error stop, m')) : stop.kind? ≠ some .runtime := by
  cases h with
  | raise hkind => rcases hkind with hkind | hkind <;> simp [Stop.kind?, hkind]
  | overflow => simp [Stop.kind?]

theorem Runs.kind?_ne_runtime (h : Runs limited task s m r m') {stop : Stop}
    (hr : r = .error stop) : stop.kind? ≠ some .runtime := by
  induction h using Runs.steps generalizing stop with
  | @located e _ _ _ r _ ih =>
      rcases r with stop' | v
      · cases hr
        rw [Stop.kind?_locate]
        exact ih rfl
      · cases hr
  | stop _ _ ih | becomes _ _ ih | enter _ _ _ ih => exact ih hr
  | proceeds _ _ _ _ _ ih' => exact ih' hr
  | finishes _ hfinishes _ _ =>
      cases hfinishes with
      | unassignable | notCallable =>
          cases hr
          simp [Stop.kind?, Cause.kind]
      | loop | define | assign => cases hr
  | ends hends =>
      cases hends with
      | misshapen hmisshapen =>
          cases hr
          simp [Stop.kind?, hmisshapen.kind_eq]
      | builtin _ hrun =>
          rw [hr] at hrun
          exact Builtin.Effect.kind?_ne_runtime (hrun ▸ Builtin.effect_apply _ _ _)
      | undefined | builtinArity | closureArity | notFunction =>
          cases hr
          simp [Stop.kind?, Cause.kind]
      | foreign | tooDeep | tooLong =>
          cases hr
          simp [Stop.kind?]
      | literal | name | sequence | function => cases hr

end Runs

namespace Exec

/-- An execution that leaves what has been printed before it. -/
def Appends {α : Type} (x : Exec α) : Prop :=
  ∀ m : Machine, m.Prints (x.after m)

namespace Appends

variable {α β : Type} {x : Exec α} {f : α → Exec β}

theorem after_bind (hf : ∀ a, (f a).Appends) (m : Machine) :
    (x.after m).Prints ((x >>= f).after m) := by
  rw [after, after, run_bind]
  rcases x.run m with ⟨stop | a, m₁⟩
  · exact Machine.prints_of_output_eq rfl
  · exact hf a m₁

theorem bind (hx : x.Appends) (hf : ∀ a, (f a).Appends) : (x >>= f).Appends :=
  fun m => (hx m).trans (after_bind hf m)

theorem whileTrue {test body : Exec Value} (htest : test.Appends) (hbody : body.Appends)
    (rounds : Nat) : (whileTrue test body rounds).Appends := by
  induction rounds with
  | zero => exact fun _ => Machine.prints_of_output_eq rfl
  | succ rounds ih =>
      refine htest.bind fun v => ?_
      split
      · exact hbody.bind fun _ => ih
      · exact fun _ => Machine.prints_of_output_eq rfl

end Appends

/-- That an execution does what another one does, unless a fault stops it. Then it has printed the
beginning of what the other one prints. -/
def Approximates (fault : Fault) {α : Type} (x y : Exec α) : Prop :=
  ∀ m : Machine, m.Prints (y.after m) ∧
    (y.run m = x.run m ∨ (x.run m).1 = .error (.fault fault) ∧ (x.after m).Prints (y.after m))

namespace Approximates

section Steps

variable {fault : Fault} {α β : Type} {x y : Exec α}

theorem appends (h : Approximates fault x y) : y.Appends :=
  fun m => (h m).1

theorem same (h : x.Appends) : Approximates fault x x :=
  fun m => ⟨h m, .inl rfl⟩

theorem throw (stop : Stop) : Approximates fault (throw stop : Exec α) (throw stop) :=
  same fun _ => Machine.prints_of_output_eq rfl

theorem pure (a : α) : Approximates fault (Pure.pure a : Exec α) (Pure.pure a) :=
  same fun _ => Machine.prints_of_output_eq rfl

theorem stopped (h : y.Appends) :
    Approximates fault (MonadExcept.throw (.fault fault) : Exec α) y :=
  fun m => ⟨h m, .inr ⟨rfl, h m⟩⟩

theorem bind {f g : α → Exec β} (hx : Approximates fault x y)
    (hf : ∀ a, Approximates fault (f a) (g a)) : Approximates fault (x >>= f) (y >>= g) := by
  intro m
  have hmore : (y.after m).Prints ((y >>= g).after m) :=
    Appends.after_bind (fun a => (hf a).appends) m
  refine ⟨(hx.appends m).trans hmore, ?_⟩
  rcases (hx m).2 with hagrees | ⟨hfault, hshort⟩
  · rw [after, after, run_bind, run_bind, hagrees]
    rcases x.run m with ⟨stop | a, m₁⟩
    · exact .inl rfl
    · exact (hf a m₁).2
  · -- the other one goes on, and prints behind what it has printed so far
    have hstop : (x >>= f).run m = (.error (.fault fault), x.after m) :=
      run_bind_error f (Prod.ext hfault rfl)
    rw [after, hstop]
    exact .inr ⟨rfl, hshort.trans hmore⟩

theorem locate (p : Option Position) (hx : Approximates fault x y) :
    Approximates fault (locate p x) (locate p y) := by
  have hafter : ∀ (z : Exec α) m, (Exec.locate p z).after m = z.after m := by
    intro z m
    rw [after, after, run_locate]
    rcases z.run m with ⟨stop | a, m₁⟩ <;> rfl
  intro m
  rw [hafter, hafter, run_locate, run_locate]
  refine (hx m).imp_right (Or.imp ?_ ?_)
  · intro hagrees
    rw [hagrees]
  · -- a fault gets no place
    rintro ⟨hfault, hshort⟩
    refine ⟨?_, hshort⟩
    rw [show x.run m = (.error (.fault fault), x.after m) from Prod.ext hfault rfl]
    rfl

theorem run_eq (h : Approximates fault x y) {m : Machine}
    (hx : (x.run m).1 ≠ .error (.fault fault)) : y.run m = x.run m :=
  (h m).2.resolve_right fun hshort => hx hshort.1

theorem after_prints (h : Approximates fault x y) (m : Machine) :
    (x.after m).Prints (y.after m) := by
  rcases (h m).2 with hagrees | ⟨-, hshort⟩
  · rw [after, after, hagrees]
    exact Machine.prints_of_output_eq rfl
  · exact hshort

end Steps

theorem whileTrue {fault : Fault} {test test' body body' : Exec Value}
    (htest : Approximates fault test test') (hbody : Approximates fault body body')
    {rounds rounds' : Nat} (hle : rounds ≤ rounds') (hlong : rounds < rounds' → fault = .tooLong) :
    Approximates fault (whileTrue test body rounds) (whileTrue test' body' rounds') := by
  induction rounds generalizing rounds' with
  | zero =>
      rcases rounds' with _ | rounds'
      · exact .throw _
      · -- only that it goes round too often can stop the loop here
        cases hlong (Nat.succ_pos rounds')
        exact .stopped (htest.appends.whileTrue hbody.appends _)
  | succ rounds ih =>
      rcases rounds' with _ | rounds'
      · exact absurd hle (Nat.not_succ_le_zero rounds)
      · refine htest.bind fun v => ?_
        split
        · exact hbody.bind fun _ => ih (by omega) fun hlt => hlong (by omega)
        · exact .pure _

end Approximates

end Exec

open Exec

/-- That an evaluator does what another one does, unless a fault stops it. -/
def Evaluator.Approximates (fault : Fault) (eval eval' : Evaluator) : Prop :=
  ∀ e s, Exec.Approximates fault (eval e s) (eval' e s)

namespace Evaluator.Approximates

variable {fault : Fault} {eval eval' : Evaluator} {s : ScopeId}

theorem apply (heval : Approximates fault eval eval') (id : ClosureId) (c : Closure)
    (arguments : List Value) :
    Exec.Approximates fault (c.apply eval id arguments) (c.apply eval' id arguments) := by
  rw [Closure.apply, Closure.apply]
  split
  · have hscope : (newScope (some c.scope) .source (c.parameters.zip arguments)).Appends :=
      fun _ => Machine.prints_of_output_eq rfl
    exact (Exec.Approximates.same hscope).bind fun s => heval c.body s
  · refine (Exec.Approximates.same fun m => ?_).bind fun _ => .throw _
    rcases quiet_display (.closure id) m with ⟨text, hrun⟩ | ⟨kind, hrun⟩
    · exact Machine.prints_of_output_eq (by rw [after, hrun])
    · exact Machine.prints_of_output_eq (by rw [after, hrun])

theorem call (heval : Approximates fault eval eval') (callee : Value) (arguments : List Value) :
    Exec.Approximates fault (call eval callee arguments) (call eval' callee arguments) := by
  cases callee with
  | builtin b => exact .same fun m => (b.effect_apply arguments m).prints
  | closure id =>
      -- what the closure is depends on the machine, so its two calls are compared on one
      intro m
      rw [after, after, run_call_id, run_call_id]
      cases m.heap.closures[id]? with
      | none => exact Exec.Approximates.throw _ m
      | some c => exact heval.apply id c arguments m
  | bool | number | string | array => exact .throw _

theorem sequence (heval : Approximates fault eval eval') (v : Value) (es : List Expr) :
    Exec.Approximates fault (evalSequence eval s v es) (evalSequence eval' s v es) := by
  induction es generalizing v with
  | nil => exact .pure v
  | cons e es ih => exact (heval e s).bind fun v => ih v

theorem arguments (heval : Approximates fault eval eval') (es : List Expr) :
    Exec.Approximates fault (evalArguments eval s es) (evalArguments eval' s es) := by
  induction es with
  | nil => exact .pure []
  | cons e es ih => exact (heval e s).bind fun v => ih.bind fun vs => .pure _

variable {rounds rounds' : Nat}

theorem special (heval : Approximates fault eval eval') (hle : rounds ≤ rounds')
    (hlong : rounds < rounds' → fault = .tooLong) (form : Special) :
    Exec.Approximates fault (form.eval eval rounds s) (form.eval eval' rounds' s) := by
  cases form with
  | conditional test yes no =>
      refine (heval test s).bind fun v => ?_
      split
      · exact heval yes s
      · exact heval no s
  | loop test body => exact (heval test s).whileTrue (heval body s) hle hlong
  | sequence body => exact heval.sequence (.bool false) body
  | define name origin e =>
      exact (heval e s).bind fun v => .same fun _ => Machine.prints_of_output_eq rfl
  | assign name e =>
      refine (heval e s).bind fun v => (Exec.Approximates.same fun m => ?_).bind fun _ => .pure v
      rw [after, run_assign]
      split <;> exact Machine.prints_of_output_eq rfl
  | function parameters body => exact .same fun _ => Machine.prints_of_output_eq rfl

theorem step (heval : Approximates fault eval eval') (hle : rounds ≤ rounds')
    (hlong : rounds < rounds' → fault = .tooLong) :
    Approximates fault (evalStep eval rounds) (evalStep eval' rounds') := by
  intro e s
  cases e with
  | literal v p => exact .pure v
  | name x o p =>
      refine .same fun m => ?_
      rw [evalStep, after, run_lookup]
      split <;> exact Machine.prints_of_output_eq rfl
  | foreign thing => exact .throw _
  | apply f es p =>
      rw [evalStep, evalStep]
      split
      · split
        · exact heval.special hle hlong _
        · exact .throw _
      · refine (heval f s).bind fun callee => ?_
        split
        · exact (heval.arguments es).bind fun vs => heval.call callee vs
        · exact .throw _

end Evaluator.Approximates

theorem appends_eval (rounds depth : Nat) (e : Expr) (s : ScopeId) :
    (eval rounds depth e s).Appends :=
  fun m => (runs_eval rounds depth e s m).prints

/-- Evaluation with one of its limits raised does what it did before, unless that limit stopped
it. -/
theorem approximates_eval {fault : Fault} {rounds rounds' depth depth' : Nat}
    (hrounds : rounds ≤ rounds') (hlong : rounds < rounds' → fault = .tooLong)
    (hdepth : depth ≤ depth') (hdeep : depth < depth' → fault = .tooDeep) :
    Evaluator.Approximates fault (eval rounds depth) (eval rounds' depth') := by
  induction depth generalizing depth' with
  | zero =>
      intro e s
      rcases depth' with _ | depth'
      · exact .throw _
      · cases hdeep (Nat.succ_pos depth')
        exact .stopped (appends_eval _ _ e s)
  | succ depth ih =>
      intro e s
      rcases depth' with _ | depth'
      · exact absurd hdepth (Nat.not_succ_le_zero depth)
      · have hinner := ih (Nat.le_of_succ_le_succ hdepth) fun hlt => hdeep (Nat.succ_lt_succ hlt)
        exact (hinner.step hrounds hlong e s).locate e.position

section Raised

variable {rounds rounds' depth depth' : Nat} {e : Expr} {s : ScopeId} {m : Machine}

theorem run_eval_of_rounds_le (hle : rounds ≤ rounds')
    (h : ((eval rounds depth e s).run m).1 ≠ .error (.fault .tooLong)) :
    (eval rounds' depth e s).run m = (eval rounds depth e s).run m :=
  (approximates_eval hle (fun _ => rfl) (Nat.le_refl depth)
    (fun hlt => absurd hlt (Nat.lt_irrefl depth)) e s).run_eq h

theorem approximates_eval_of_depth_le (hle : depth ≤ depth') :
    Exec.Approximates .tooDeep (eval rounds depth e s) (eval rounds depth' e s) :=
  approximates_eval (Nat.le_refl rounds) (fun hlt => absurd hlt (Nat.lt_irrefl rounds)) hle
    (fun _ => rfl) e s

end Raised

namespace Program

variable {limits : Limits} {scope : ScopeId} {source : String} {m m' : Machine}

theorem eval_of_reported_tooDeep {p : Option Position}
    (h : (run limits scope source).run m = (.error (.raised ⟨.tooDeep, p⟩), m')) :
    p = none ∧ ∃ e, Expr.parse limits.nesting source = .ok e ∧
      (evalWithin limits e scope).run m = (.error (.fault .tooDeep), m') := by
  rw [run_eq] at h
  split at h
  · rename_i stop hparse
    cases h
    rcases Expr.parse_fails hparse with ⟨rejection, hstop⟩ | ⟨hstop, -⟩
    · cases hstop
    · cases hstop
  · rename_i e hparse
    have hruns := runs_eval limits.rounds limits.depth e scope m
    change Runs true _ _ _ ((evalWithin limits e scope).run m).1 _ at hruns
    rcases heval : (evalWithin limits e scope).run m with ⟨stop | v, m₁⟩
    · rw [heval] at h hruns
      rcases stop with rejection | error | fault
      · cases h
      · -- evaluation raises no error of this kind itself
        cases h
        exact absurd rfl (hruns.kind?_ne_runtime rfl)
      · cases fault with
        | tooDeep =>
            cases h
            exact ⟨rfl, e, hparse, heval⟩
        | overflow | notExpression | tooLong => cases h
    · rw [heval] at h
      cases h

/-- How deep evaluation may go does not show until it goes too deep. A run that ends, and not
because it went too deep, ends in the same way if it may go deeper: with the same value or error,
which has the same place, and with the same scopes, heap and output. A run that goes too deep is
reported by a general error without a place, and if the run ends that may go deeper, then what the
first one has printed is the beginning of what that one prints. A run that is stopped at its
number of rounds has not ended. -/
theorem depth_unseen_until_hit (nesting : Nat) (source : String) (scope : ScopeId) (m : Machine)
    {shallow deep : Nat} (hle : shallow ≤ deep) (rounds : Nat) :
    (∀ r m', (run ⟨nesting, shallow, rounds⟩ scope source).run m = (r, m') →
      r ≠ .error (.fault .tooLong) → (∀ p, r ≠ .error (.raised ⟨.tooDeep, p⟩)) →
      ∀ rounds' ≥ rounds, (run ⟨nesting, deep, rounds'⟩ scope source).run m = (r, m')) ∧
    ∀ p m', (run ⟨nesting, shallow, rounds⟩ scope source).run m =
        (.error (.raised ⟨.tooDeep, p⟩), m') →
      p = none ∧ Cause.tooDeep.kind = .runtime ∧
      (Stop.raised ⟨.tooDeep, p⟩).message = "maximum recursion depth exceeded" ∧
      ∀ rounds' r' m'', (run ⟨nesting, deep, rounds'⟩ scope source).run m = (r', m'') →
        r' ≠ .error (.fault .tooLong) → ∃ text, m''.output = m'.output ++ text := by
  constructor
  · intro r m' hrun hlong hdeep rounds' hrounds
    rw [run_eq] at hrun ⊢
    cases hparse : Expr.parse nesting source with
    | error stop =>
        simp only [hparse] at hrun ⊢
        exact hrun
    | ok e =>
        simp only [hparse, evalWithin] at hrun ⊢
        obtain ⟨rfl, rfl⟩ := Prod.mk.inj hrun
        have hnotLong : ((eval rounds shallow e scope).run m).1 ≠ .error (.fault .tooLong) := by
          intro h
          exact hlong (by rw [h]; rfl)
        have hnotDeep : ((eval rounds' shallow e scope).run m).1 ≠ .error (.fault .tooDeep) := by
          intro h
          rw [run_eval_of_rounds_le hrounds hnotLong] at h
          exact hdeep none (by rw [h]; rfl)
        rw [(approximates_eval_of_depth_le hle).run_eq hnotDeep,
          run_eval_of_rounds_le hrounds hnotLong]
  · intro p m' hrun
    obtain ⟨rfl, e, hparse, heval⟩ := eval_of_reported_tooDeep hrun
    refine ⟨rfl, rfl, rfl, fun rounds' r' m'' hrun' hlong => ?_⟩
    simp only [run_eq, hparse, evalWithin] at hrun'
    obtain ⟨rfl, rfl⟩ := Prod.mk.inj hrun'
    -- both runs are the same with as many rounds as either of them may take
    have hshallow : (eval (max rounds rounds') shallow e scope).run m =
        (.error (.fault .tooDeep), m') :=
      (run_eval_of_rounds_le (Nat.le_max_left rounds rounds') (by
        rw [show (eval rounds shallow e scope).run m = _ from heval]
        exact fun h => by cases h)).trans heval
    have hdeep : (eval (max rounds rounds') deep e scope).run m =
        (eval rounds' deep e scope).run m :=
      run_eval_of_rounds_le (Nat.le_max_right rounds rounds') fun h => hlong (by rw [h]; rfl)
    have hprints : ((eval (max rounds rounds') shallow e scope).after m).Prints
        ((eval (max rounds rounds') deep e scope).after m) :=
      (approximates_eval_of_depth_le hle).after_prints m
    rwa [after, after, hshallow, hdeep] at hprints

/-- A program that prints in a block, and then once more two blocks further inside. -/
def nestedPrints : String := "do(print(\"a\"), do(do(print(\"b\"))))"

/-- Four levels let the first call print and not the second, and from five on the limit does not
show. -/
theorem depth_unseen_until_hit_nested :
    ∃ r m', (run ⟨9, 4, 9⟩ 1 nestedPrints).run (.fresh "") = (r, m') ∧
      r = .error (.raised ⟨.tooDeep, none⟩) ∧ m'.output = "a\n" ∧
      ∃ r₅ m₅, (run ⟨9, 5, 9⟩ 1 nestedPrints).run (.fresh "") = (r₅, m₅) ∧
        r₅ ≠ .error (.fault .tooLong) ∧ (∀ p, r₅ ≠ .error (.raised ⟨.tooDeep, p⟩)) ∧
        (∃ text, m₅.output = m'.output ++ text) ∧
        (run ⟨9, 7, 12⟩ 1 nestedPrints).run (.fresh "") = (r₅, m₅) := by
  have hshallow : ((run ⟨9, 4, 9⟩ 1 nestedPrints).run (.fresh "")).1 =
      .error (.raised ⟨.tooDeep, none⟩) := by decide +kernel
  have hdeep : ((run ⟨9, 5, 9⟩ 1 nestedPrints).run (.fresh "")).1 = .ok (.string "b") := by
    decide +kernel
  have hlong : ((run ⟨9, 5, 9⟩ 1 nestedPrints).run (.fresh "")).1 ≠ .error (.fault .tooLong) := by
    rw [hdeep]
    exact fun h => by cases h
  have hends : ∀ p, ((run ⟨9, 5, 9⟩ 1 nestedPrints).run (.fresh "")).1 ≠
      .error (.raised ⟨.tooDeep, p⟩) := by
    rw [hdeep]
    exact fun p h => by cases h
  have hfour := depth_unseen_until_hit 9 nestedPrints 1 (.fresh "") (show 4 ≤ 5 by decide) 9
  have hfive := depth_unseen_until_hit 9 nestedPrints 1 (.fresh "") (show 5 ≤ 7 by decide) 9
  refine ⟨_, _, rfl, hshallow, by decide +kernel, _, _, rfl, hlong, hends, ?_, ?_⟩
  · exact (hfour.2 none _ (Prod.ext hshallow rfl)).2.2.2 9 _ _ rfl hlong
  · exact hfive.1 _ _ rfl hlong hends 12 (by decide)

end Program

end Egg
