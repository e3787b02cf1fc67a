import Egg.Proofs.Discipline

namespace Egg

namespace Form

/-- The arguments that a special form can be applied to. -/
def Admits (form : Form) (es : List Expr) : Prop :=
  match form with
  | conditional => es.length = 3
  | loop => es.length = 2
  | sequence => True
  | define | assign => es.length = 2 ∧ ∀ e ∈ es.take 1, e.word?.isSome = true
  | function => 1 ≤ es.length ∧ ∀ e ∈ es.dropLast, e.word?.isSome = true

instance (form : Form) (es : List Expr) : Decidable (form.Admits es) :=
  match form with
  | conditional => inferInstanceAs (Decidable (es.length = 3))
  | loop => inferInstanceAs (Decidable (es.length = 2))
  | sequence => inferInstanceAs (Decidable True)
  | define | assign =>
      inferInstanceAs (Decidable (es.length = 2 ∧ ∀ e ∈ es.take 1, e.word?.isSome = true))
  | function =>
      inferInstanceAs (Decidable (1 ≤ es.length ∧ ∀ e ∈ es.dropLast, e.word?.isSome = true))

end Form

section Admits

variable {form : Form} {es : List Expr}

theorem Shaped.admits {special : Special} (h : Shaped form es special) : form.Admits es := by
  cases h with
  | conditional | loop => rfl
  | sequence => trivial
  | define | assign => exact ⟨rfl, by simp [Expr.word?]⟩
  | @function parameters names body hnames =>
      refine ⟨by simp, ?_⟩
      rw [List.dropLast_concat]
      intro e he
      have hmem : e.word? ∈ names.map some := hnames ▸ List.mem_map_of_mem he
      obtain ⟨x, -, hx⟩ := List.mem_map.mp hmem
      rw [← hx, Option.isSome_some]

theorem Misshapen.not_admits {error : Error} (h : Misshapen form es error) : ¬ form.Admits es := by
  intro hadmits
  cases h with
  | @count form n es hcount hlength =>
      cases form with
      | conditional | loop =>
          cases hcount
          exact hlength hadmits
      | define | assign =>
          cases hcount
          exact hlength hadmits.1
      | sequence | function => cases hcount
  | @target form e value hform hnone =>
      have hword : e.word?.isSome = true := by
        rcases hform with rfl | rfl
        · exact hadmits.2 e (by simp)
        · exact hadmits.2 e (by simp)
      simp [hnone] at hword
  | noBody => exact absurd hadmits.1 (by simp)
  | @parameter front rest e body _ hnone =>
      have hword := hadmits.2 e (by rw [List.dropLast_concat]; simp)
      simp [hnone] at hword

theorem Form.exists_misshapen (h : ¬ form.Admits es) : ∃ error, Misshapen form es error :=
  (form.shaped_or_misshapen es).resolve_left fun ⟨_, hshaped⟩ => h hshaped.admits

end Admits

namespace Expr

/-- All applications of special forms in an expression have the shape they should have. -/
def WellShaped (e : Expr) : Prop :=
  ∀ f es p, e.Contains (.apply f es p) → ∀ form, f.form? = some form → form.Admits es

theorem WellShaped.of_contains {e x : Expr} (h : e.WellShaped) (hx : e.Contains x) : x.WellShaped :=
  fun f es p hcontains => h f es p (hx.trans hcontains)

theorem WellShaped.hereditary : Hereditary WellShaped :=
  fun _ _ => of_contains

theorem wellShaped_apply_iff {f : Expr} {es : List Expr} {p : Option Position} :
    (apply f es p).WellShaped ↔
      (∀ form, f.form? = some form → form.Admits es) ∧ f.WellShaped ∧ ∀ e ∈ es, e.WellShaped := by
  constructor
  · intro h
    refine ⟨h f es p .self, h.of_contains (.operator .self), ?_⟩
    intro e he
    exact h.of_contains (.argument .self he)
  · rintro ⟨hself, hf, hes⟩ g gs q hcontains
    rcases hcontains.of_apply with heq | hcontains | ⟨e, he, hcontains⟩
    · cases heq
      exact hself
    · exact hf g gs q hcontains
    · exact hes e he g gs q hcontains

theorem wellShaped_of_leaf {e : Expr} (hleaf : ∀ f es p, e ≠ .apply f es p) : e.WellShaped :=
  fun f es p hcontains => absurd (hcontains.eq_of_leaf hleaf).symm (hleaf f es p)

mutual

/-- Check the shapes of an expression. -/
def checksShape : Expr → Bool
  | .apply f es _ => f.form?.all (fun form => form.Admits es) && f.checksShape && checksShapes es
  | _ => true

def checksShapes : List Expr → Bool
  | [] => true
  | e :: es => e.checksShape && checksShapes es

end

mutual

theorem checksShape_iff : ∀ e : Expr, e.checksShape = true ↔ e.WellShaped
  | .apply f es p => by
      rw [checksShape, Bool.and_eq_true, Bool.and_eq_true, checksShape_iff f, checksShapes_iff es,
        Option.all_eq_true, wellShaped_apply_iff, and_assoc]
      simp only [decide_eq_true_iff]
  | .literal _ _ => iff_of_true rfl (wellShaped_of_leaf (by simp))
  | .name _ _ _ => iff_of_true rfl (wellShaped_of_leaf (by simp))
  | .foreign _ => iff_of_true rfl (wellShaped_of_leaf (by simp))

theorem checksShapes_iff : ∀ es : List Expr, checksShapes es = true ↔ ∀ e ∈ es, e.WellShaped
  | [] => by simp [checksShapes]
  | e :: es => by
      rw [checksShapes, Bool.and_eq_true, checksShape_iff e, checksShapes_iff es,
        List.forall_mem_cons]

end

instance (e : Expr) : Decidable e.WellShaped :=
  decidable_of_iff (e.checksShape = true) (checksShape_iff e)

end Expr

/-- The ways to end that blame the form of a program and not what it does. -/
def Stop.isSyntaxError : Stop → Bool
  | .rejected _ => true
  | .raised error => error.cause.kind = .malformed
  | .fault _ => false

@[simp] theorem Stop.isSyntaxError_locate (p : Option Position) (stop : Stop) :
    (stop.locate p).isSyntaxError = stop.isSyntaxError := by
  rcases stop with rejection | ⟨cause, _ | q⟩ | fault
  all_goals rfl

/-- The bodies of all functions on the heap are well shaped. -/
def Heap.HasShapedBodies (heap : Heap) : Prop :=
  ∀ c ∈ heap.closures, c.body.WellShaped

/-- A run without a syntax error that leaves well-shaped bodies on the heap. -/
structure Runs.KeepsShape (r : Except Stop Value) (heap : Heap) : Prop where
  bodies : heap.HasShapedBodies
  stop : ∀ stop, r = .error stop → stop.isSyntaxError = false

section KeepsShape

variable {limited : Bool} {task : Task} {v : Value} {s : ScopeId} {m m' : Machine}
  {r : Except Stop Value}

namespace Runs.KeepsShape

theorem ok {heap : Heap} (h : heap.HasShapedBodies) (v : Value) : KeepsShape (.ok v) heap :=
  ⟨h, fun _ h => by cases h⟩

theorem error {heap : Heap} (h : heap.HasShapedBodies) {stop : Stop}
    (hstop : stop.isSyntaxError = false) : KeepsShape (.error stop) heap :=
  ⟨h, fun _ h' => Except.error.inj h' ▸ hstop⟩

theorem locate {heap : Heap} {p : Option Position} (h : KeepsShape r heap) :
    KeepsShape (r.mapError (Stop.locate p)) heap := by
  rcases r with stop | v
  · exact .error h.bodies (by rw [Stop.isSyntaxError_locate, h.stop stop rfl])
  · exact .ok h.bodies v

theorem builtin (hm : m.heap.HasShapedBodies) {b : Builtin} {arguments : List Value}
    (hrun : (b.apply arguments).run m = (r, m')) : KeepsShape r m'.heap := by
  have heffect := b.effect_apply arguments m
  rw [hrun] at heffect
  cases heffect with
  | plain | item | print => exact .ok hm _
  | array => exact ⟨hm, fun _ h => by cases h⟩
  | raise hkind =>
      refine .error hm ?_
      rcases hkind with hkind | hkind <;> simp [Stop.isSyntaxError, hkind]
  | overflow => exact .error hm rfl

end Runs.KeepsShape

theorem Heap.HasShapedBodies.addClosure (hm : m.heap.HasShapedBodies) {c : Closure}
    (hc : c.body.WellShaped) : (m.addClosure c).heap.HasShapedBodies := by
  intro c' hc'
  rcases Array.mem_push.mp hc' with hc' | rfl
  · exact hm c' hc'
  · exact hc

theorem Task.Finishes.keepsShape (h : task.Finishes s m v r m') (hm : m.heap.HasShapedBodies) :
    Runs.KeepsShape r m'.heap := by
  cases h with
  | loop | define | assign => exact .ok hm _
  | unassignable | notCallable => exact .error hm rfl

theorem Task.Ends.keepsShape (h : task.Ends limited s m r m') (hm : m.heap.HasShapedBodies)
    (htask : ∀ x ∈ task.parts, x.WellShaped) : Runs.KeepsShape r m'.heap := by
  cases h with
  | literal | name | sequence => exact .ok hm _
  | function => exact .ok (hm.addClosure (htask _ (List.mem_singleton.mpr rfl))) _
  | @misshapen form o q p es error hmisshapen =>
      have hadmits := htask _ (List.mem_singleton.mpr rfl) _ _ _ .self form
        (Expr.form?_eq_some_iff.mpr ⟨o, q, rfl⟩)
      exact absurd hadmits hmisshapen.not_admits
  | builtin _ hrun => exact .builtin hm hrun
  | undefined | foreign | builtinArity | closureArity | notFunction | tooDeep | tooLong =>
      exact .error hm rfl

theorem Runs.keepsShape (h : Runs limited task s m r m') (hm : m.heap.HasShapedBodies)
    (htask : ∀ x ∈ task.parts, x.WellShaped) : KeepsShape r m'.heap := by
  have hshape := Expr.WellShaped.hereditary
  induction h using Runs.steps with
  | located _ ih => exact (ih hm htask).locate
  | stop hbegins _ ih => exact ih hm (hbegins.inherits hshape htask)
  | becomes hbecomes _ ih => exact ih hm (hbecomes.inherits hshape htask)
  | proceeds hbegins hproceeds _ _ ih ih' =>
      have hfirst := ih hm (hbegins.inherits hshape htask)
      exact ih' hfirst.bodies (hproceeds.inherits hshape htask)
  | finishes hbegins hfinishes _ ih =>
      have hfirst := ih hm (hbegins.inherits hshape htask)
      exact hfinishes.keepsShape hfirst.bodies
  | enter hc _ _ ih => exact ih hm (by simpa using hm _ (Array.mem_of_getElem? hc))
  | ends hends => exact hends.keepsShape hm htask

end KeepsShape

theorem Stop.locate_raised (p : Option Position) (error : Error) :
    (raised error).locate p = raised ⟨error.cause, error.position.or p⟩ := by
  rcases error with ⟨cause, _ | q⟩
  all_goals rfl

theorem eval_of_misshapen {f : Expr} {form : Form} {es : List Expr} {error : Error}
    (hform : f.form? = some form) (h : Misshapen form es error) (rounds depth : Nat)
    (p : Option Position) (s : ScopeId) (m : Machine) :
    (eval rounds (depth + 1) (.apply f es p) s).run m =
      (.error (.raised ⟨error.cause, error.position.or p⟩), m) := by
  have hstep : evalStep (eval rounds depth) rounds (.apply f es p) s = throw (.raised error) := by
    simp only [evalStep, hform, Form.shape_of_misshapen h]
  rw [eval, Exec.run_locate, hstep, ← Stop.locate_raised]
  rfl

/-- Checking shapes is enough, and it comes first. If the special forms in an expression and in
the functions on the heap are all well shaped, evaluating the expression does not end in a syntax
error, within any limits, and leaves only such functions on the heap. Evaluating an application of
a special form that is not well shaped raises a syntax error and leaves the machine exactly as it
was. -/
theorem eval_wellShaped (rounds depth : Nat) (s : ScopeId) (m : Machine) :
    (∀ e : Expr, e.WellShaped → m.heap.HasShapedBodies →
      (∀ stop, ((eval rounds depth e s).run m).1 = .error stop → stop.isSyntaxError = false) ∧
        ((eval rounds depth e s).run m).2.heap.HasShapedBodies) ∧
    ∀ (f : Expr) (es : List Expr) (p : Option Position) (form : Form),
      f.form? = some form → ¬ form.Admits es →
      ∃ error, error.cause.kind = .malformed ∧
        (eval rounds (depth + 1) (.apply f es p) s).run m = (.error (.raised error), m) := by
  constructor
  · intro e he hm
    have hkeeps := (runs_eval rounds depth e s m).keepsShape hm (by simpa using he)
    exact ⟨hkeeps.stop, hkeeps.bodies⟩
  · intro f es p form hform hadmits
    obtain ⟨error, hmisshapen⟩ := form.exists_misshapen hadmits
    refine ⟨⟨error.cause, error.position.or p⟩, hmisshapen.kind_eq, ?_⟩
    exact eval_of_misshapen hform hmisshapen rounds depth p s m

/-- A conditional that lacks a branch, and that would define a name. -/
def shortConditional : List Expr :=
  [.apply (.name "define" .source none) [.name "x" .source none, .literal (.bool true) none] none,
    .name "x" .source none]

/-- A machine with a function on it. -/
def branchingMachine : Machine :=
  Machine.empty.addClosure ⟨["x"], .apply (.name "if" .source none)
    [.name "x" .source none, .name "y" .source none, .literal (.bool true) none] none, 0⟩

theorem eval_wellShaped_shortConditional :
    branchingMachine.heap.HasShapedBodies ∧
      (Expr.apply (.literal (.closure 0) none) [.literal (.bool false) none] none).WellShaped ∧
      (∀ stop,
        ((eval 9 9 (.apply (.literal (.closure 0) none) [.literal (.bool false) none] none) 0).run
        branchingMachine).1 = .error stop → stop.isSyntaxError = false) ∧
      ¬ Form.conditional.Admits shortConditional ∧
      ∃ error, error.cause.kind = .malformed ∧
        (eval 9 9 (.apply (.name "if" .source none) shortConditional none) 0).run branchingMachine =
          (.error (.raised error), branchingMachine) := by
  have hbodies : branchingMachine.heap.HasShapedBodies :=
    Heap.HasShapedBodies.addClosure (fun c hc => absurd hc (Array.not_mem_empty c))
      (by decide +kernel)
  have hcall : (Expr.apply (.literal (.closure 0) none)
      [.literal (.bool false) none] none).WellShaped := by decide +kernel
  have hshort : ¬ Form.conditional.Admits shortConditional := by decide
  refine ⟨hbodies, hcall, ?_, hshort, ?_⟩
  · exact ((eval_wellShaped 9 9 0 branchingMachine).1 _ hcall hbodies).1
  · exact (eval_wellShaped 9 8 0 branchingMachine).2 _ _ none _ rfl hshort

end Egg
