import Egg.Proofs.BigStepEvaluation

namespace Egg

/-- The names that a scope itself binds, in the order in which they were bound. -/
def Scope.names (s : Scope) : List String :=
  s.bindings.map (·.name)

namespace Scope

@[simp] theorem names_set (s : Scope) (x : String) (v : Value) : (s.set x v).names = s.names := by
  simp only [names, set, List.map_map]
  refine List.map_congr_left fun b _ => ?_
  rw [Function.comp_apply]
  split <;> rfl

theorem names_put (s : Scope) (x : String) (o : Origin) (v : Value) :
    (s.put x o v).names = if s.binds x then s.names else s.names ++ [x] := by
  rw [put]
  split
  · exact names_set s x v
  · simp [names]

theorem names_prefix_put (s : Scope) (x : String) (o : Origin) (v : Value) :
    s.names <+: (s.put x o v).names := by
  rw [names_put]
  split
  · exact List.prefix_refl _
  · exact List.prefix_append _ _

end Scope

namespace Forest

def names (f : Forest) (i : ScopeId) : List String :=
  ((f.get? i).map Scope.names).getD []

theorem names_of_size_le {f : Forest} {i : ScopeId} (h : f.size ≤ i) : f.names i = [] := by
  rw [names, get?, Array.getElem?_eq_none h]
  rfl

@[simp] theorem size_defineAll (f : Forest) (id : ScopeId) (o : Origin)
    (bindings : List (String × Value)) : (f.defineAll id o bindings).size = f.size := by
  induction bindings generalizing f with
  | nil => rfl
  | cons b bindings ih => exact (ih _).trans (size_define f id b.1 o b.2)

theorem get?_define_of_ne {f : Forest} {id i : ScopeId} (h : i ≠ id) (x : String) (o : Origin)
    (v : Value) : (f.define id x o v).get? i = f.get? i := by
  rw [get?_define, if_neg h.symm]

theorem get?_set_of_ne {f : Forest} {id i : ScopeId} (h : i ≠ id) (x : String) (v : Value) :
    (f.set id x v).get? i = f.get? i := by
  rw [get?_set, if_neg h.symm]

theorem get?_defineAll_of_ne {f : Forest} {id i : ScopeId} (h : i ≠ id) (o : Origin)
    (bindings : List (String × Value)) : (f.defineAll id o bindings).get? i = f.get? i := by
  induction bindings generalizing f with
  | nil => rfl
  | cons b bindings ih => exact ih.trans (get?_define_of_ne h b.1 o b.2)

theorem names_prefix_define (f : Forest) (id i : ScopeId) (x : String) (o : Origin) (v : Value) :
    f.names i <+: (f.define id x o v).names i := by
  rw [names, names, get?_define]
  split
  · cases f.get? i with
    | none => exact List.prefix_refl _
    | some s => exact s.names_prefix_put x o v
  · exact List.prefix_refl _

@[simp] theorem names_set (f : Forest) (id i : ScopeId) (x : String) (v : Value) :
    (f.set id x v).names i = f.names i := by
  rw [names, names, get?_set]
  split
  · cases f.get? i with
    | none => rfl
    | some s => exact s.names_set x v
  · rfl

end Forest

theorem getElem?_push_of_getElem? {α : Type} {xs : Array α} {i : Nat} {x : α} (h : xs[i]? = some x)
    (y : α) : (xs.push y)[i]? = some x := by
  obtain ⟨hi, -⟩ := Array.getElem?_eq_some_iff.mp h
  rw [Array.getElem?_push, if_neg (Nat.ne_of_lt hi), h]

namespace Machine

variable {s : ScopeId} {m m₁ m₂ : Machine}

theorem size_enter (m : Machine) (c : Closure) (arguments : List Value) :
    (m.enter c arguments).forest.size = m.forest.size + 1 := by
  simp [enter]

theorem get?_enter_of_ne {i : ScopeId} (h : i ≠ m.forest.size) (c : Closure)
    (arguments : List Value) : (m.enter c arguments).forest.get? i = m.forest.get? i := by
  rw [enter, Forest.get?_defineAll_of_ne h, Forest.get?_push, if_neg h]

/-- What a task that is carried out in a scope can do to the scopes and to the heap. -/
structure Grows (s : ScopeId) (m m' : Machine) : Prop where
  size : m.forest.size ≤ m'.forest.size
  names_prefix : ∀ i < m.forest.size, m.forest.names i <+: m'.forest.names i
  names_eq : ∀ i < m.forest.size, i ≠ s → m'.forest.names i = m.forest.names i
  arrays : ∀ (id : ArrayId) items,
    m.heap.arrays[id]? = some items → m'.heap.arrays[id]? = some items
  closures : ∀ (id : ClosureId) c, m.heap.closures[id]? = some c → m'.heap.closures[id]? = some c

namespace Grows

theorem refl (s : ScopeId) (m : Machine) : Grows s m m :=
  ⟨Nat.le_refl _, fun _ _ => List.prefix_refl _, fun _ _ _ => rfl, fun _ _ h => h, fun _ _ h => h⟩

theorem trans (h₁ : Grows s m m₁) (h₂ : Grows s m₁ m₂) : Grows s m m₂ where
  size := Nat.le_trans h₁.size h₂.size
  names_prefix i hi :=
    (h₁.names_prefix i hi).trans (h₂.names_prefix i (Nat.lt_of_lt_of_le hi h₁.size))
  names_eq i hi hne :=
    (h₂.names_eq i (Nat.lt_of_lt_of_le hi h₁.size) hne).trans (h₁.names_eq i hi hne)
  arrays id items h := h₂.arrays id items (h₁.arrays id items h)
  closures id c h := h₂.closures id c (h₁.closures id c h)

end Grows

theorem grows_define (s : ScopeId) (m : Machine) (x : String) (o : Origin) (v : Value) :
    Grows s m (m.define s x o v) where
  size := Nat.le_of_eq (Forest.size_define _ _ _ _ _).symm
  names_prefix i _ := Forest.names_prefix_define _ s i x o v
  names_eq i _ hne := by
    rw [define, Forest.names, Forest.get?_define_of_ne hne, ← Forest.names]
  arrays _ _ h := h
  closures _ _ h := h

theorem grows_set (s : ScopeId) (m : Machine) (owner : ScopeId) (x : String) (v : Value) :
    Grows s m (m.set owner x v) where
  size := Nat.le_of_eq (Forest.size_set _ _ _ _).symm
  names_prefix i _ := by simp [set]
  names_eq i _ _ := Forest.names_set _ owner i x v
  arrays _ _ h := h
  closures _ _ h := h

theorem grows_addClosure (s : ScopeId) (m : Machine) (c : Closure) :
    Grows s m (m.addClosure c) where
  size := Nat.le_refl _
  names_prefix _ _ := List.prefix_refl _
  names_eq _ _ _ := rfl
  arrays _ _ h := h
  closures _ _ h := getElem?_push_of_getElem? h c

/-- A call adds one scope and changes none: what its body does in that scope leaves the names of
all others alone. -/
theorem Grows.of_enter {c : Closure} {arguments : List Value} (s : ScopeId)
    (h : Grows m.forest.size (m.enter c arguments) m₁) : Grows s m m₁ := by
  have hsize := m.size_enter c arguments
  have hnames : ∀ i < m.forest.size, m₁.forest.names i = m.forest.names i := by
    intro i hi
    have hne : i ≠ m.forest.size := Nat.ne_of_lt hi
    rw [h.names_eq i (by omega) hne, Forest.names, get?_enter_of_ne hne, ← Forest.names]
  refine ⟨?_, ?_, fun i hi _ => hnames i hi, h.arrays, h.closures⟩
  · have := h.size
    omega
  · intro i hi
    simp [hnames i hi]

end Machine

theorem Builtin.Effect.grows {arguments : List Value} {m m' : Machine} {r : Except Stop Value}
    (s : ScopeId) (h : Builtin.Effect arguments m (r, m')) : m.Grows s m' := by
  cases h with
  | array =>
      refine ⟨Nat.le_refl _, fun _ _ => List.prefix_refl _, fun _ _ _ => rfl, ?_, fun _ _ h => h⟩
      exact fun id items h => getElem?_push_of_getElem? h _
  | print =>
      exact ⟨Nat.le_refl _, fun _ _ => List.prefix_refl _, fun _ _ _ => rfl, fun _ _ h => h,
        fun _ _ h => h⟩
  | plain | item | raise | overflow => exact .refl s m

theorem Runs.grows {limited : Bool} {task : Task} {s : ScopeId} {m m' : Machine}
    {r : Except Stop Value} (h : Runs limited task s m r m') : m.Grows s m' := by
  induction h with
  | define _ ih => exact ih.trans (Machine.grows_define _ _ _ _ _)
  | assign _ _ ih => exact ih.trans (Machine.grows_set _ _ _ _ _)
  | function => exact Machine.grows_addClosure _ _ _
  | builtin _ hrun => exact Builtin.Effect.grows _ (hrun ▸ Builtin.effect_apply _ _ _)
  | closure _ _ _ ih => exact ih.of_enter _
  -- the rules that leave the machine alone
  | literal | name | undefined | foreign | misshapen | sequenceEnd | builtinArity | closureArity
  | notFunction | tooDeep | tooLong => exact .refl _ _
  -- the rules that carry out one task, and those that carry out two
  | located _ ih | stop _ _ ih | form _ _ ih | loopEnd _ ih | sequence _ ih | unassignable _ _ ih
  | notCallable _ _ _ ih | operandsEnd _ ih => exact ih
  | conditionalYes _ _ _ ih₁ ih₂ | conditionalNo _ _ ih₁ ih₂ | loopRound _ _ _ ih₁ ih₂
  | round _ _ ih₁ ih₂ | sequenceNext _ _ ih₁ ih₂ | application _ _ _ _ ih₁ ih₂
  | operand _ _ ih₁ ih₂ => exact ih₁.trans ih₂

/-- The machine as an execution leaves it, whether it gives a value or stops. -/
def Exec.after {α : Type} (x : Exec α) (m : Machine) : Machine :=
  (x.run m).2

theorem runs_eval (rounds depth : Nat) (e : Expr) (s : ScopeId) (m : Machine) :
    Runs true (.expression e) s m ((eval rounds depth e s).run m).1
      ((eval rounds depth e s).after m) :=
  follows_eval true rounds depth e s m _ _ rfl fun _ _ _ => rfl

theorem runs_call (rounds depth : Nat) (f : Value) (arguments : List Value) (s : ScopeId)
    (m : Machine) :
    Runs true (.call f arguments) s m ((call (eval rounds depth) f arguments).run m).1
      ((call (eval rounds depth) f arguments).after m) :=
  (follows_eval true rounds depth).call rfl fun _ _ _ => rfl

/-- Local names do not leak. Evaluation in a scope leaves the names of all other scopes as they
were and takes none from its own, whether it gives a value or stops; and a call leaves the names
of all scopes as they were. -/
theorem names_after_eval (rounds depth : Nat) (e : Expr) (scope : ScopeId) (m : Machine) :
    m.forest.size ≤ ((eval rounds depth e scope).after m).forest.size ∧
    (∀ i < m.forest.size, i ≠ scope →
      ((eval rounds depth e scope).after m).forest.names i = m.forest.names i) ∧
    m.forest.names scope <+: ((eval rounds depth e scope).after m).forest.names scope ∧
    ∀ f arguments, ∀ i < m.forest.size,
      ((call (eval rounds depth) f arguments).after m).forest.names i = m.forest.names i := by
  have heval := (runs_eval rounds depth e scope m).grows
  refine ⟨heval.size, heval.names_eq, ?_, ?_⟩
  · by_cases hscope : scope < m.forest.size
    · exact heval.names_prefix scope hscope
    · rw [Forest.names_of_size_le (Nat.le_of_not_lt hscope)]
      exact List.nil_prefix
  -- a call is carried out in no scope of its own, so none that is there is excepted
  · intro f arguments i hi
    have hcall := (runs_call rounds depth f arguments m.forest.size m).grows
    exact hcall.names_eq i hi (Nat.ne_of_lt hi)

end Egg
