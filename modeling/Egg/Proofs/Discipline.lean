import Egg.Proofs.ProgramNode
import Egg.Proofs.Reachability
import Egg.Proofs.TaskStep

/-!
Disciplines. A discipline says what may occur in a run of a program: which values there may be,
and whether a number may become too large. All code comes from the program, so a discipline that
its literals and the builtins observe is kept by every moment of a run and by the way in which the
run ends.
-/

namespace Egg

def Forest.HasBindings (f : Forest) (P : String → Value → Prop) : Prop :=
  ∀ i scope, f.get? i = some scope → ∀ b ∈ scope.bindings, P b.name b.value

def Heap.HasItems (heap : Heap) (P : Value → Prop) : Prop :=
  ∀ (id : ArrayId) items, heap.arrays[id]? = some items → ∀ v ∈ items, P v

namespace Forest.HasBindings

variable {f : Forest} {P : String → Value → Prop} {x : String} {v : Value}

theorem lookup? (h : f.HasBindings P) {s : ScopeId} (hlookup : f.lookup? s x = some v) : P x v := by
  obtain ⟨i, -, scope, hscope, b, hb, rfl, rfl⟩ := Forest.exists_of_lookup? hlookup
  exact h i scope hscope b hb

theorem push (h : f.HasBindings P) (parent : Option ScopeId) :
    (f.push ⟨parent, []⟩).HasBindings P := by
  intro i scope hscope b hb
  rw [Forest.get?_push] at hscope
  split at hscope
  · cases hscope
    cases hb
  · exact h i scope hscope b hb

theorem define (h : f.HasBindings P) (hv : P x v) (s : ScopeId) (o : Origin) :
    (f.define s x o v).HasBindings P := by
  intro i scope hscope b hb
  rw [Forest.get?_define] at hscope
  split at hscope
  · obtain ⟨scope, hget, rfl⟩ := Option.map_eq_some_iff.mp hscope
    rcases Scope.eq_or_mem_of_mem_put hb with ⟨rfl, rfl⟩ | hb
    · exact hv
    · exact h i scope hget b hb
  · exact h i scope hscope b hb

theorem set (h : f.HasBindings P) (hv : P x v) (s : ScopeId) : (f.set s x v).HasBindings P := by
  intro i scope hscope b hb
  rw [Forest.get?_set] at hscope
  split at hscope
  · obtain ⟨scope, hget, rfl⟩ := Option.map_eq_some_iff.mp hscope
    rcases Scope.eq_or_mem_of_mem_set hb with ⟨rfl, rfl⟩ | hb
    · exact hv
    · exact h i scope hget b hb
  · exact h i scope hscope b hb

theorem defineAll (h : f.HasBindings P) (s : ScopeId) (o : Origin)
    {bindings : List (String × Value)}
    (hbindings : ∀ b ∈ bindings, P b.1 b.2) : (f.defineAll s o bindings).HasBindings P := by
  induction bindings generalizing f with
  | nil => exact h
  | cons b bindings ih =>
      obtain ⟨hb, hbindings⟩ := List.forall_mem_cons.mp hbindings
      exact ih (h.define hb s o) hbindings

end Forest.HasBindings

section Hereditary

/-- A property that the expressions inside an expression have if it does itself. -/
def Expr.Hereditary (P : Expr → Prop) : Prop :=
  ∀ x y, P x → x.Contains y → P y

theorem Expr.Contains.hereditary {e : Expr} : Hereditary e.Contains :=
  fun _ _ => trans

variable {P : Expr → Prop} (hP : Expr.Hereditary P) {task task' : Task} {e : Expr} {v : Value}

include hP

theorem Task.Begins.inherits (h : task.Begins e) (htask : ∀ x ∈ task.parts, P x) :
    ∀ x ∈ (Task.expression e).parts, P x := by
  intro x hx
  rw [List.mem_singleton.mp hx]
  cases h with
  | operator => exact hP _ _ (htask _ (List.mem_singleton.mpr rfl)) (.operator .self)
  | conditional | loop | round | sequence | define | assign | operand => exact htask _ (by simp)

theorem Task.Becomes.inherits (h : task.Becomes task') (htask : ∀ x ∈ task.parts, P x) :
    ∀ x ∈ task'.parts, P x := by
  cases h with
  | form hshaped =>
      intro x hx
      have happly := htask _ (List.mem_singleton.mpr rfl)
      exact hP _ _ happly (.argument .self (hshaped.mem_of_mem_parts x hx))
  | sequence | call => exact htask

theorem Task.Proceeds.inherits (h : task.Proceeds v task') (htask : ∀ x ∈ task.parts, P x) :
    ∀ x ∈ task'.parts, P x := by
  intro x hx
  cases h with
  | yes | no =>
      rw [List.mem_singleton.mp hx]
      exact htask _ (by simp)
  | loop | round => exact htask x hx
  | sequence | operand => exact htask x (List.mem_cons_of_mem _ hx)
  | operator => exact hP _ _ (htask _ (List.mem_singleton.mpr rfl)) (.argument .self hx)

end Hereditary

/-- What may occur in a run of a program. Some bindings may be excepted, as long as the program
never mentions their names. -/
structure Discipline where
  program : Expr
  value : Value → Prop
  excepted : String → Value → Prop
  overflows : Prop
  literal : ∀ v p, program.Contains (.literal v p) → value v
  name : ∀ x o p, program.Contains (.name x o p) → ∀ v, ¬ excepted x v
  foreign : ∀ thing, ¬ program.Contains (.foreign thing)
  bool : ∀ b, value (.bool b)
  array : ∀ id, value (.array id)
  closure : ∀ id, value (.closure id)
  builtin : ∀ b arguments m r m', value (.builtin b) → (∀ v ∈ arguments, value v) →
    m.heap.HasItems value → (Builtin.apply b arguments).run m = (r, m') →
    (∀ v, r = .ok v → value v) ∧ ∀ kind, r = .error (.fault (.overflow kind)) → overflows

/-- The discipline that only demands that all code comes from a program. -/
def Discipline.ofProgram (program : Expr) (foreign : ∀ thing, ¬ program.Contains (.foreign thing)) :
    Discipline where
  program := program
  value _ := True
  excepted _ _ := False
  overflows := True
  literal _ _ _ := trivial
  name _ _ _ _ _ := not_false
  foreign := foreign
  bool _ := trivial
  array _ := trivial
  closure _ := trivial
  builtin _ _ _ _ _ _ _ _ _ := ⟨fun _ _ => trivial, fun _ _ => trivial⟩

inductive Discipline.Permits (d : Discipline) : Except Stop Value → Prop where
  | value {v : Value} : d.value v → Permits d (.ok v)
  | raised {error : Error} : error.cause.kind ≠ .runtime → Permits d (.error (.raised error))
  | overflow {kind : Overflow} : d.overflows → Permits d (.error (.fault (.overflow kind)))
  | limit {stop : Stop} : stop.isLimit = true → Permits d (.error stop)

structure Machine.Obeys (d : Discipline) (m : Machine) : Prop where
  bindings : m.forest.HasBindings fun x v => d.value v ∨ d.excepted x v
  items : m.heap.HasItems d.value
  bodies : ∀ (id : ClosureId) c, m.heap.closures[id]? = some c → d.program.Contains c.body

structure Task.Obeys (d : Discipline) (task : Task) : Prop where
  parts : ∀ e ∈ task.parts, d.program.Contains e
  values : ∀ v ∈ task.values, d.value v

variable {d : Discipline} {limited : Bool} {task task' : Task} {e : Expr} {v : Value} {s : ScopeId}
  {m m₁ m' : Machine} {r : Except Stop Value}

namespace Discipline.Permits

theorem locate {p : Option Position} (h : d.Permits r) :
    d.Permits (r.mapError (Stop.locate p)) := by
  cases h with
  | value hv => exact .value hv
  | @raised error hkind =>
      rcases error with ⟨cause, _ | q⟩
      · exact .raised hkind
      · exact .raised hkind
  | overflow h => exact .overflow h
  | limit hstop => exact .limit (by rw [Stop.isLimit_locate, hstop])

theorem of_ok (h : d.Permits (.ok v)) : d.value v := by
  cases h with
  | value hv => exact hv

end Discipline.Permits

namespace Machine.Obeys

theorem define (hm : m.Obeys d) (hv : d.value v) (s : ScopeId) (x : String) (o : Origin) :
    (m.define s x o v).Obeys d :=
  ⟨hm.bindings.define (.inl hv) s o, hm.items, hm.bodies⟩

theorem set (hm : m.Obeys d) (hv : d.value v) (s : ScopeId) (x : String) : (m.set s x v).Obeys d :=
  ⟨hm.bindings.set (.inl hv) s, hm.items, hm.bodies⟩

theorem enter (hm : m.Obeys d) (c : Closure) {arguments : List Value}
    (harguments : ∀ v ∈ arguments, d.value v) : (m.enter c arguments).Obeys d := by
  refine ⟨(hm.bindings.push _).defineAll _ _ fun b hb => .inl ?_, hm.items, hm.bodies⟩
  exact harguments b.2 (List.of_mem_zip hb).2

theorem addClosure (hm : m.Obeys d) {c : Closure} (hbody : d.program.Contains c.body) :
    (m.addClosure c).Obeys d := by
  refine ⟨hm.bindings, hm.items, fun id c' hc' => ?_⟩
  rw [Machine.addClosure, Array.getElem?_push] at hc'
  split at hc'
  · cases hc'
    exact hbody
  · exact hm.bodies id c' hc'

theorem builtin (hm : m.Obeys d) {b : Builtin} {arguments : List Value} (hb : d.value (.builtin b))
    (harguments : ∀ v ∈ arguments, d.value v) (hrun : (b.apply arguments).run m = (r, m')) :
    m'.Obeys d ∧ d.Permits r := by
  obtain ⟨hvalue, hoverflow⟩ := d.builtin b arguments m r m' hb harguments hm.items hrun
  have heffect := b.effect_apply arguments m
  rw [hrun] at heffect
  cases heffect with
  | plain | item => exact ⟨hm, .value (hvalue _ rfl)⟩
  | raise hkind =>
      refine ⟨hm, .raised ?_⟩
      rcases hkind with hkind | hkind <;> simp [hkind]
  | overflow => exact ⟨hm, .overflow (hoverflow _ rfl)⟩
  | print => exact ⟨⟨hm.bindings, hm.items, hm.bodies⟩, .value (hvalue _ rfl)⟩
  | array =>
      refine ⟨⟨hm.bindings, fun id items hitems => ?_, hm.bodies⟩, .value (hvalue _ rfl)⟩
      rw [Array.getElem?_push] at hitems
      split at hitems
      · cases hitems
        exact harguments
      · exact hm.items id items hitems

end Machine.Obeys

namespace Task.Obeys

theorem begins (h : task.Obeys d) (hbegins : task.Begins e) : (Task.expression e).Obeys d :=
  ⟨hbegins.inherits Expr.Contains.hereditary h.parts, fun _ hv => absurd hv List.not_mem_nil⟩

theorem becomes (h : task.Obeys d) (hbecomes : task.Becomes task') : task'.Obeys d := by
  refine ⟨hbecomes.inherits Expr.Contains.hereditary h.parts, ?_⟩
  cases hbecomes with
  | form => exact fun v hv => absurd hv List.not_mem_nil
  | sequence => exact fun v hv => List.mem_singleton.mp hv ▸ d.bool false
  | call => exact h.values

theorem proceeds (h : task.Obeys d) (hv : d.value v) (hproceeds : task.Proceeds v task') :
    task'.Obeys d := by
  refine ⟨hproceeds.inherits Expr.Contains.hereditary h.parts, ?_⟩
  have hsingle : ∀ w ∈ [v], d.value w := fun w hw => List.mem_singleton.mp hw ▸ hv
  cases hproceeds with
  | yes | no | loop | round => exact fun w hw => absurd hw List.not_mem_nil
  | sequence | operator => exact hsingle
  | operand =>
      intro w hw
      rw [Task.values, ← List.cons_append, List.mem_append] at hw
      rcases hw with hw | hw
      · exact h.values w hw
      · exact hsingle w hw

theorem program (d : Discipline) : (Task.expression d.program).Obeys d :=
  ⟨fun _ he => List.mem_singleton.mp he ▸ .self, fun _ hv => absurd hv List.not_mem_nil⟩

theorem body (hm : m.Obeys d) {id : ClosureId} {c : Closure} (hc : m.heap.closures[id]? = some c) :
    (Task.expression c.body).Obeys d :=
  ⟨fun _ he => List.mem_singleton.mp he ▸ hm.bodies id c hc, fun _ hv => absurd hv List.not_mem_nil⟩

end Task.Obeys

theorem Misshapen.kind_eq {form : Form} {es : List Expr} {error : Error}
    (h : Misshapen form es error) : error.cause.kind = .malformed := by
  cases h <;> rfl

theorem Task.Finishes.obeys (h : task.Finishes s m v r m') (hm : m.Obeys d) (hv : d.value v) :
    m'.Obeys d ∧ d.Permits r := by
  cases h with
  | loop => exact ⟨hm, .value (d.bool false)⟩
  | define => exact ⟨hm.define hv _ _ _, .value hv⟩
  | assign => exact ⟨hm.set hv _ _, .value hv⟩
  | unassignable | notCallable => exact ⟨hm, .raised (by simp [Cause.kind])⟩

theorem Task.Ends.obeys (h : task.Ends limited s m r m') (hm : m.Obeys d) (htask : task.Obeys d) :
    m'.Obeys d ∧ d.Permits r := by
  cases h with
  | literal => exact ⟨hm, .value (d.literal _ _ (htask.parts _ (List.mem_singleton.mpr rfl)))⟩
  | name hlookup =>
      -- an excepted binding is never found, as the program does not mention its name
      refine ⟨hm, .value ((hm.bindings.lookup? hlookup).resolve_right ?_)⟩
      exact d.name _ _ _ (htask.parts _ (List.mem_singleton.mpr rfl)) _
  | foreign => exact absurd (htask.parts _ (List.mem_singleton.mpr rfl)) (d.foreign _)
  | misshapen h => exact ⟨hm, .raised (by simp [h.kind_eq])⟩
  | sequence => exact ⟨hm, .value (htask.values _ (List.mem_singleton.mpr rfl))⟩
  | function =>
      exact ⟨hm.addClosure (htask.parts _ (List.mem_singleton.mpr rfl)), .value (d.closure _)⟩
  | builtin _ hrun =>
      obtain ⟨hb, harguments⟩ := List.forall_mem_cons.mp htask.values
      exact hm.builtin hb harguments hrun
  | undefined | builtinArity | closureArity | notFunction =>
      exact ⟨hm, .raised (by simp [Cause.kind])⟩
  | tooDeep | tooLong => exact ⟨hm, .limit rfl⟩

/-- A run keeps to a discipline: it leaves the machine as it should be, and ends in a permitted
way. -/
theorem Runs.obeys (h : Runs limited task s m r m') (hm : m.Obeys d) (htask : task.Obeys d) :
    m'.Obeys d ∧ d.Permits r := by
  induction h using Runs.steps with
  | located _ ih =>
      obtain ⟨hm', hr⟩ := ih hm ⟨htask.parts, htask.values⟩
      exact ⟨hm', hr.locate⟩
  | stop hbegins _ ih => exact ih hm (htask.begins hbegins)
  | becomes hbecomes _ ih => exact ih hm (htask.becomes hbecomes)
  | proceeds hbegins hproceeds _ _ ih ih' =>
      obtain ⟨hm₁, hv⟩ := ih hm (htask.begins hbegins)
      exact ih' hm₁ (htask.proceeds hv.of_ok hproceeds)
  | finishes hbegins hfinishes _ ih =>
      obtain ⟨hm₁, hv⟩ := ih hm (htask.begins hbegins)
      exact hfinishes.obeys hm₁ hv.of_ok
  | enter hc _ _ ih =>
      exact ih (hm.enter _ (List.forall_mem_cons.mp htask.values).2) (.body hm hc)
  | ends hends => exact hends.obeys hm htask

namespace Moment

structure Obeys (d : Discipline) (a : Moment) : Prop where
  machine : a.machine.Obeys d
  task : a.task.Obeys d

theorem Next.obeys {a b : Moment} (h : a.Next b) (ha : a.Obeys d) : b.Obeys d := by
  cases h with
  | node => exact ⟨ha.machine, ha.task.parts, ha.task.values⟩
  | becomes hbecomes => exact ⟨ha.machine, ha.task.becomes hbecomes⟩
  | begins hbegins => exact ⟨ha.machine, ha.task.begins hbegins⟩
  | proceeds hbegins hruns hproceeds =>
      obtain ⟨hm', hv⟩ := hruns.obeys ha.machine (ha.task.begins hbegins)
      exact ⟨hm', ha.task.proceeds hv.of_ok hproceeds⟩
  | enter hc _ =>
      exact ⟨ha.machine.enter _ (List.forall_mem_cons.mp ha.task.values).2, .body ha.machine hc⟩

theorem Later.obeys {a b : Moment} (h : a.Later b) (ha : a.Obeys d) : b.Obeys d := by
  induction h with
  | refl => exact ha
  | tail _ hnext ih => exact hnext.obeys ih

end Moment

end Egg
