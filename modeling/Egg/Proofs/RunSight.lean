import Egg.Proofs.Reachability
import Egg.Proofs.TaskStep

namespace Egg

namespace Heap

/-- That all arrays and closures of a heap are on another one too, under their numbers and
unchanged. -/
structure Extends (heap heap' : Heap) : Prop where
  arrays : ∀ (id : ArrayId) items, heap.arrays[id]? = some items → heap'.arrays[id]? = some items
  closures : ∀ (id : ClosureId) c, heap.closures[id]? = some c → heap'.closures[id]? = some c

namespace Extends

variable {heap heap₁ heap₂ : Heap}

theorem refl (heap : Heap) : heap.Extends heap :=
  ⟨fun _ _ h => h, fun _ _ h => h⟩

theorem trans (h₁ : heap.Extends heap₁) (h₂ : heap₁.Extends heap₂) : heap.Extends heap₂ where
  arrays id items h := h₂.arrays id items (h₁.arrays id items h)
  closures id c h := h₂.closures id c (h₁.closures id c h)

theorem holds (h : heap.Extends heap₁) {v : Value} (hv : heap.Holds v) : heap₁.Holds v :=
  hv.mono h.arrays h.closures

end Extends

end Heap

/-- The machine at a moment of a run, and the values that the tasks under way have in hand. -/
structure Sight where
  machine : Machine
  values : List Value

namespace Sight

/-- A sight of a part of a task, seen from the whole of it. -/
def holding (values : List Value) (sight : Sight) : Sight :=
  { sight with values := values ++ sight.values }

/-- The values that are anywhere at a sight: in the hand of a task, bound in a scope, or inside an
array that is there. -/
inductive Has (sight : Sight) : Value → Prop where
  | held {v : Value} : v ∈ sight.values → Has sight v
  | bound {i : ScopeId} {scope : Scope} {b : Binding} :
      sight.machine.forest.get? i = some scope → b ∈ scope.bindings → Has sight b.value
  | item {id : ArrayId} {items : List Value} {v : Value} :
      Has sight (.array id) → sight.machine.heap.arrays[id]? = some items → v ∈ items → Has sight v

structure Sound (sight : Sight) : Prop where
  wellFormed : sight.machine.WellFormed
  values : ∀ v ∈ sight.values, sight.machine.heap.Holds v

theorem Sound.holds {sight : Sight} (h : sight.Sound) {v : Value} (hv : sight.Has v) :
    sight.machine.heap.Holds v := by
  induction hv with
  | held hv => exact h.values _ hv
  | bound hscope hb => exact h.wellFormed.value _ _ hscope _ hb
  | item _ hitems hv ih => exact ih.item hitems hv

theorem Sound.holding {sight : Sight} (h : sight.Sound) {values : List Value}
    (hvalues : ∀ v ∈ values, sight.machine.heap.Holds v) : (sight.holding values).Sound where
  wellFormed := h.wellFormed
  values v hv := (List.mem_append.mp hv).elim (hvalues v) (h.values v)

end Sight

/-- The sights of a run, from the start of its task to the end. -/
inductive Passes (limited : Bool) :
    Task → ScopeId → Machine → Except Stop Value → Machine → Sight → Prop where
  | start {task : Task} {s : ScopeId} {m m' : Machine} {r : Except Stop Value} :
      Runs limited task s m r m' → Passes limited task s m r m' ⟨m, task.values⟩
  | finish {task : Task} {s : ScopeId} {m m' : Machine} {r : Except Stop Value} :
      Runs limited task s m r m' →
      Passes limited task s m r m' ⟨m', task.values ++ r.toOption.toList⟩
  | located {e : Expr} {s : ScopeId} {m m' : Machine} {r : Except Stop Value} {sight : Sight} :
      Passes limited (.node e) s m r m' sight →
      Passes limited (.expression e) s m (r.mapError (Stop.locate e.position)) m' sight
  | stop {task : Task} {e : Expr} {s : ScopeId} {m m' : Machine} {stop : Stop} {sight : Sight} :
      task.Begins e → Passes limited (.expression e) s m (.error stop) m' sight →
      Passes limited task s m (.error stop) m' (sight.holding task.values)
  | becomes {task task' : Task} {s : ScopeId} {m m' : Machine} {r : Except Stop Value}
      {sight : Sight} :
      task.Becomes task' → Passes limited task' s m r m' sight → Passes limited task s m r m' sight
  | first {task task' : Task} {e : Expr} {v : Value} {s : ScopeId} {m m₁ m' : Machine}
      {r : Except Stop Value} {sight : Sight} :
      task.Begins e → task.Proceeds v task' →
      Passes limited (.expression e) s m (.ok v) m₁ sight → Runs limited task' s m₁ r m' →
      Passes limited task s m r m' (sight.holding task.values)
  | rest {task task' : Task} {e : Expr} {v : Value} {s : ScopeId} {m m₁ m' : Machine}
      {r : Except Stop Value} {sight : Sight} :
      task.Begins e → task.Proceeds v task' → Runs limited (.expression e) s m (.ok v) m₁ →
      Passes limited task' s m₁ r m' sight → Passes limited task s m r m' sight
  | finishes {task : Task} {e : Expr} {v : Value} {s : ScopeId} {m m₁ m' : Machine}
      {r : Except Stop Value} {sight : Sight} :
      task.Begins e → task.Finishes s m₁ v r m' →
      Passes limited (.expression e) s m (.ok v) m₁ sight →
      Passes limited task s m r m' (sight.holding task.values)
  | enter {id : ClosureId} {c : Closure} {arguments : List Value} {s : ScopeId} {m m' : Machine}
      {r : Except Stop Value} {sight : Sight} :
      m.heap.closures[id]? = some c → arguments.length = c.parameters.length →
      Passes limited (.expression c.body) m.forest.size (m.enter c arguments) r m' sight →
      Passes limited (.call (.closure id) arguments) s m r m'
        (sight.holding (.closure id :: arguments))

section Heap

variable {limited : Bool} {task : Task} {s : ScopeId} {m m' : Machine} {r : Except Stop Value}
  {v : Value} {sight : Sight}

theorem Runs.extends (h : Runs limited task s m r m') : m.heap.Extends m'.heap :=
  ⟨h.grows.arrays, h.grows.closures⟩

theorem Task.Finishes.heap_eq (h : task.Finishes s m v r m') : m'.heap = m.heap := by
  cases h <;> rfl

/-- What is on the heap when a run starts is there at each of its sights, and what is there at a
sight is there when the run ends. -/
theorem Passes.extends (h : Passes limited task s m r m' sight) :
    m.heap.Extends sight.machine.heap ∧ sight.machine.heap.Extends m'.heap := by
  induction h with
  | start h => exact ⟨.refl _, h.extends⟩
  | finish h => exact ⟨h.extends, .refl _⟩
  | located _ ih | stop _ _ ih | becomes _ _ ih | enter _ _ _ ih => exact ih
  | first _ _ _ hrest ih => exact ⟨ih.1, ih.2.trans hrest.extends⟩
  | rest _ _ hfirst _ ih => exact ⟨hfirst.extends.trans ih.1, ih.2⟩
  | finishes _ hfinishes _ ih => exact ⟨ih.1, hfinishes.heap_eq ▸ ih.2⟩

end Heap

namespace Task.Confined

variable {region : ScopeId → Prop} {s : ScopeId} {m : Machine} {task task' : Task} {v : Value}

theorem becomes (h : task.Confined region s m) (hbecomes : task.Becomes task') :
    task'.Confined region s m := by
  cases hbecomes with
  | form hshaped =>
      exact ⟨fun e he => h.apply.2 e (hshaped.mem_of_mem_parts e he),
        fun v hv => absurd hv List.not_mem_nil, h.scope⟩
  | sequence =>
      refine h.next rfl (fun _ he => he) fun v hv => ?_
      rw [List.mem_singleton.mp hv]
      exact .plain trivial
  | call => exact ⟨h.parts, h.values, fun hcall => by cases hcall⟩

theorem proceeds (h : task.Confined region s m) (hproceeds : task.Proceeds v task')
    (hv : m.heap.Within region v) : task'.Confined region s m := by
  cases hproceeds with
  | yes | no => exact h.part rfl (by simp)
  | loop | round => exact h.next rfl (fun _ he => he) fun v hv => absurd hv List.not_mem_nil
  | sequence =>
      refine h.next rfl (fun _ he => List.mem_cons_of_mem _ he) fun w hw => ?_
      rw [List.mem_singleton.mp hw]
      exact hv
  | operator =>
      refine ⟨h.apply.2, fun w hw => ?_, h.scope⟩
      rw [List.mem_singleton.mp hw]
      exact hv
  | operand =>
      refine h.next rfl (fun _ he => List.mem_cons_of_mem _ he) fun w hw => ?_
      rw [Task.values, ← List.cons_append, List.mem_append] at hw
      rcases hw with hw | hw
      · exact h.values w hw
      · rw [List.mem_singleton.mp hw]
        exact hv

theorem enter {id : ClosureId} {c : Closure} {arguments : List Value}
    (h : (Task.call (.closure id) arguments).Confined region s m) (hm : m.Confined region)
    (hc : m.heap.closures[id]? = some c) :
    (m.enter c arguments).Confined region ∧
      (Task.expression c.body).Confined region m.forest.size (m.enter c arguments) := by
  have hregion : region c.scope := (h.values _ List.mem_cons_self).scope (.closure hc)
  refine ⟨hm.enter hregion fun v hv => h.values v (List.mem_cons_of_mem _ hv), ?_, ?_, ?_⟩
  · intro e he
    rw [List.mem_singleton.mp he]
    exact (hm.closure id c hc).2
  · exact fun v hv => absurd hv List.not_mem_nil
  · rw [Machine.size_enter]
    exact fun _ => ⟨hm.fresh _ (Nat.le_refl _), Nat.lt_succ_self _⟩

end Task.Confined

theorem Passes.sound {limited : Bool} {task : Task} {s : ScopeId} {m m' : Machine}
    {r : Except Stop Value} {sight : Sight} (h : Passes limited task s m r m' sight)
    (hm : m.WellFormed) (htask : task.Confined (fun _ => True) s m) : sight.Sound := by
  induction h with
  | start => exact ⟨hm, htask.values⟩
  | @finish task s m m' r h =>
      have houtcome := h.confined hm.confined htask
      refine ⟨houtcome.confined.wellFormed, fun v hv => ?_⟩
      rcases List.mem_append.mp hv with hv | hv
      · exact h.extends.holds (htask.values v hv)
      · refine houtcome.value v ?_
        rw [Option.mem_toList] at hv
        cases r with
        | ok w => exact congrArg Except.ok (Option.some.inj hv)
        | error stop => cases hv
  | located _ ih => exact ih hm ⟨htask.parts, htask.values, htask.scope⟩
  | stop hbegins hpart ih | finishes hbegins _ hpart ih | first hbegins _ hpart _ ih =>
      -- what the task has in hand is still on the heap at a sight of its part
      have hsight := ih hm (htask.begins hbegins)
      exact hsight.holding fun v hv => hpart.extends.1.holds (htask.values v hv)
  | becomes hbecomes _ ih => exact ih hm (htask.becomes hbecomes)
  | rest hbegins hproceeds hfirst _ ih =>
      have houtcome := hfirst.confined hm.confined (htask.begins hbegins)
      exact ih houtcome.confined.wellFormed
        ((htask.grow hfirst.grows).proceeds hproceeds (houtcome.value _ rfl))
  | enter hc _ hbody ih =>
      obtain ⟨henter, htaskBody⟩ := htask.enter hm.confined hc
      have hsight := ih henter.wellFormed htaskBody
      exact hsight.holding fun v hv => hbody.extends.1.holds (htask.values v hv)

end Egg
