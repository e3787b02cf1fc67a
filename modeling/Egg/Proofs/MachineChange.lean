import Egg.Proofs.Reachability
import Mathlib.Logic.Relation

/-!
The elementary changes of the machine. Whatever happens on a machine is a sequence of such
changes: a scope is added inside one that is there, a name is bound or changed, an array or a
closure is put on the heap, or something is printed. What one change keeps, every history keeps.
-/

namespace Egg

namespace Forest

/-- The scope around the scope with a number. -/
def parent? (f : Forest) (i : ScopeId) : Option ScopeId :=
  (f.get? i).bind (·.parent)

theorem parent?_push (f : Forest) (scope : Scope) (i : ScopeId) :
    (f.push scope).parent? i = if i = f.size then scope.parent else f.parent? i := by
  rw [parent?, get?_push]
  split <;> rfl

@[simp] theorem parent?_define (f : Forest) (id i : ScopeId) (x : String) (o : Origin) (v : Value) :
    (f.define id x o v).parent? i = f.parent? i := by
  rw [parent?, parent?, get?_define]
  split
  · cases f.get? i with
    | none => rfl
    | some scope => exact scope.parent_put x o v
  · rfl

@[simp] theorem parent?_set (f : Forest) (id i : ScopeId) (x : String) (v : Value) :
    (f.set id x v).parent? i = f.parent? i := by
  rw [parent?, parent?, get?_set]
  split
  · cases f.get? i <;> rfl
  · rfl

theorem names_push_of_ne {f : Forest} {i : ScopeId} (h : i ≠ f.size) (scope : Scope) :
    (f.push scope).names i = f.names i := by
  rw [names, names, get?_push, if_neg h]

/-- The scope around another one is the older one of the two. -/
def Ordered (f : Forest) : Prop :=
  ∀ i p, f.parent? i = some p → p < i

end Forest

namespace Machine

inductive Change : Machine → Machine → Prop where
  | push {m : Machine} {parent : Option ScopeId} :
      (∀ p, parent = some p → p < m.forest.size) →
      Change m { m with forest := m.forest.push ⟨parent, []⟩ }
  | define {m : Machine} {s : ScopeId} {x : String} {o : Origin} {v : Value} :
      Change m (m.define s x o v)
  | set {m : Machine} {s : ScopeId} {x : String} {v : Value} : Change m (m.set s x v)
  | array {m : Machine} {items : List Value} :
      Change m { m with heap := { m.heap with arrays := m.heap.arrays.push items } }
  | closure {m : Machine} {c : Closure} :
      c.scope < m.forest.size → Change m (m.addClosure c)
  | print {m : Machine} {text : String} : Change m { m with output := m.output ++ text }

def Changes : Machine → Machine → Prop :=
  Relation.ReflTransGen Change

/-- What a machine keeps as it changes: a scope keeps the scope around it and all of its names,
what is on the heap stays there, and what was printed stays in front of what is printed later. -/
structure Keeps (m m' : Machine) : Prop where
  size : m.forest.size ≤ m'.forest.size
  parent : ∀ i < m.forest.size, m'.forest.parent? i = m.forest.parent? i
  names : ∀ i < m.forest.size, m.forest.names i <+: m'.forest.names i
  holds : ∀ v, m.heap.Holds v → m'.heap.Holds v
  output : ∃ text, m'.output = m.output ++ text

/-- Every closure was made in a scope that is there, and every scope stands inside an older one.
-/
structure Nested (m : Machine) : Prop where
  closure : ∀ (id : ClosureId) c, m.heap.closures[id]? = some c → c.scope < m.forest.size
  ordered : m.forest.Ordered

variable {m m' m₁ m₂ : Machine}

namespace Keeps

theorem refl (m : Machine) : m.Keeps m :=
  ⟨Nat.le_refl _, fun _ _ => rfl, fun _ _ => List.prefix_refl _, fun _ hv => hv, "", by simp⟩

theorem trans (h₁ : m.Keeps m₁) (h₂ : m₁.Keeps m₂) : m.Keeps m₂ where
  size := Nat.le_trans h₁.size h₂.size
  parent i hi := (h₂.parent i (Nat.lt_of_lt_of_le hi h₁.size)).trans (h₁.parent i hi)
  names i hi := (h₁.names i hi).trans (h₂.names i (Nat.lt_of_lt_of_le hi h₁.size))
  holds v hv := h₂.holds v (h₁.holds v hv)
  output := by
    obtain ⟨text₁, h₁⟩ := h₁.output
    obtain ⟨text₂, h₂⟩ := h₂.output
    exact ⟨text₁ ++ text₂, by rw [h₂, h₁, String.append_assoc]⟩

end Keeps

theorem Change.keeps (h : m.Change m') : m.Keeps m' := by
  cases h with
  | push =>
      refine ⟨by simp, fun i hi => ?_, fun i hi => ?_, fun _ hv => hv, "", by simp⟩
      · rw [Forest.parent?_push, if_neg (Nat.ne_of_lt hi)]
      · exact Forest.names_push_of_ne (Nat.ne_of_lt hi) _ ▸ List.prefix_refl _
  | define =>
      refine ⟨by simp [Machine.define], fun i _ => ?_, fun i _ => ?_, fun _ hv => hv, "",
        by simp [Machine.define]⟩
      · exact Forest.parent?_define _ _ _ _ _ _
      · exact Forest.names_prefix_define _ _ _ _ _ _
  | set =>
      refine ⟨by simp [Machine.set], fun i _ => ?_, fun i _ => ?_, fun _ hv => hv, "",
        by simp [Machine.set]⟩
      · exact Forest.parent?_set _ _ _ _ _
      · simp [Machine.set]
  | array =>
      refine ⟨Nat.le_refl _, fun _ _ => rfl, fun _ _ => List.prefix_refl _, fun v hv => ?_, "",
        by simp⟩
      exact hv.mono (fun _ _ h => getElem?_push_of_getElem? h _) fun _ _ h => h
  | closure =>
      refine ⟨Nat.le_refl _, fun _ _ => rfl, fun _ _ => List.prefix_refl _, fun v hv => ?_, "",
        by simp [addClosure]⟩
      exact hv.mono (fun _ _ h => h) fun _ _ h => getElem?_push_of_getElem? h _
  | print =>
      exact ⟨Nat.le_refl _, fun _ _ => rfl, fun _ _ => List.prefix_refl _, fun _ hv => hv, _, rfl⟩

theorem Change.nested (h : m.Change m') (hm : m.Nested) : m'.Nested := by
  have hsize := h.keeps.size
  cases h with
  | push hparent =>
      refine ⟨fun id c hc => Nat.lt_of_lt_of_le (hm.closure id c hc) hsize, fun i p hp => ?_⟩
      rw [Forest.parent?_push] at hp
      split at hp
      · rename_i hi
        exact hi ▸ hparent p hp
      · exact hm.ordered i p hp
  | define =>
      refine ⟨fun id c hc => Nat.lt_of_lt_of_le (hm.closure id c hc) hsize, fun i p hp => ?_⟩
      exact hm.ordered i p (by simpa [Machine.define] using hp)
  | set =>
      refine ⟨fun id c hc => Nat.lt_of_lt_of_le (hm.closure id c hc) hsize, fun i p hp => ?_⟩
      exact hm.ordered i p (by simpa [Machine.set] using hp)
  | closure hscope =>
      refine ⟨fun id c hc => ?_, hm.ordered⟩
      rw [addClosure, Array.getElem?_push] at hc
      split at hc
      · cases hc
        exact hscope
      · exact hm.closure id c hc
  | array | print => exact ⟨hm.closure, hm.ordered⟩

namespace Changes

theorem refl (m : Machine) : m.Changes m :=
  Relation.ReflTransGen.refl

theorem trans (h₁ : m.Changes m₁) (h₂ : m₁.Changes m₂) : m.Changes m₂ :=
  Relation.ReflTransGen.trans h₁ h₂

theorem single (h : m.Change m') : m.Changes m' :=
  Relation.ReflTransGen.single h

theorem keeps (h : m.Changes m') : m.Keeps m' := by
  induction h with
  | refl => exact .refl m
  | tail _ hlast ih => exact ih.trans hlast.keeps

theorem nested (h : m.Changes m') (hm : m.Nested) : m'.Nested := by
  induction h with
  | refl => exact hm
  | tail _ hlast ih => exact hlast.nested ih

theorem defineAll (m : Machine) (s : ScopeId) (o : Origin) (bindings : List (String × Value)) :
    m.Changes { m with forest := m.forest.defineAll s o bindings } := by
  induction bindings generalizing m with
  | nil => exact .refl m
  | cons b bindings ih => exact (single .define).trans (ih (m.define s b.1 o b.2))

theorem newScope {parent : Option ScopeId} (h : ∀ p, parent = some p → p < m.forest.size)
    (o : Origin) (bindings : List (String × Value)) :
    m.Changes
      { m with forest := (m.forest.push ⟨parent, []⟩).defineAll m.forest.size o bindings } :=
  (single (.push h)).trans (defineAll _ m.forest.size o bindings)

end Changes

end Machine

variable {s : ScopeId} {m m' : Machine} {r : Except Stop Value}

theorem Builtin.Effect.changes {arguments : List Value}
    (h : Builtin.Effect arguments m (r, m')) : m.Changes m' := by
  cases h with
  | array => exact .single .array
  | print => exact .single .print
  | plain | item | raise | overflow => exact .refl m

/-- All that a run does to the machine is a sequence of elementary changes. -/
theorem Runs.changes {limited : Bool} {task : Task} (h : Runs limited task s m r m') (hm : m.Nested)
    (hs : task.isCall = false → s < m.forest.size) : m.Changes m' := by
  induction h with
  -- the rules that leave the machine alone
  | literal | name | undefined | foreign | misshapen | sequenceEnd | builtinArity | closureArity
  | notFunction | tooDeep | tooLong => exact .refl _
  -- the rules that carry out one task in the same scope
  | located _ ih | form _ _ ih | loopEnd _ ih | sequence _ ih | unassignable _ _ ih
  | notCallable _ _ _ ih => exact ih hm fun _ => hs rfl
  | stop hbegins _ ih => exact ih hm fun _ => hs (by cases hbegins <;> rfl)
  | operandsEnd _ ih => exact ih hm fun h => by cases h
  | conditionalYes _ _ _ ih₁ ih₂ | conditionalNo _ _ ih₁ ih₂ | loopRound _ _ _ ih₁ ih₂
  | round _ _ ih₁ ih₂ | sequenceNext _ _ ih₁ ih₂ | application _ _ _ _ ih₁ ih₂
  | operand _ _ ih₁ ih₂ =>
      have hfirst := ih₁ hm fun _ => hs rfl
      exact hfirst.trans (ih₂ (hfirst.nested hm) fun _ =>
        Nat.lt_of_lt_of_le (hs rfl) hfirst.keeps.size)
  | define _ ih => exact (ih hm hs).trans (.single .define)
  | assign _ _ ih => exact (ih hm hs).trans (.single .set)
  | function => exact .single (.closure (hs rfl))
  | builtin _ hrun => exact Builtin.Effect.changes (hrun ▸ Builtin.effect_apply _ _ _)
  | @closure id c arguments s m m' r hc _ _ ih =>
      have henter : m.Changes (m.enter c arguments) := by
        refine .newScope (fun p hp => ?_) .source (c.parameters.zip arguments)
        cases hp
        exact hm.closure id c hc
      refine henter.trans (ih (henter.nested hm) fun _ => ?_)
      rw [Machine.size_enter]
      exact Nat.lt_succ_self _

end Egg
