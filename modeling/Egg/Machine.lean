import Egg.Heap
import Egg.Registry

/-!
The machine on which programs run: the scopes, the heap, and the text printed so far. An execution
changes the machine and gives a value or stops; what it changed before it stopped stays changed.
-/

namespace Egg

structure Machine where
  forest : Forest
  heap : Heap
  output : String

/-- An execution on the machine. -/
abbrev Exec (α : Type) : Type := ExceptT Stop (StateM Machine) α

namespace Machine

def empty : Machine := ⟨.empty, .empty, ""⟩

end Machine

namespace Exec

/-- Raise an error that has no place yet. -/
def raise {α : Type} (cause : Cause) : Exec α :=
  throw (.raised ⟨cause, none⟩)

/-- Carry out a step that can fault and does not touch the machine. -/
def ofFault {α : Type} : Except Fault α → Exec α
  | .ok a => pure a
  | .error fault => throw (.fault fault)

/-- Carry out an exact computation that may leave the range of floats. -/
def ofOverflow {α : Type} (result : Except Overflow α) : Exec α :=
  ofFault (result.mapError .overflow)

/-- Carry out an execution, and let an error from it that has no place take the given one. -/
def locate {α : Type} (position : Option Position) (exec : Exec α) : Exec α :=
  tryCatch exec fun stop => throw (stop.locate position)

/-- The value of a name, seen from a scope. -/
def lookup (scope : ScopeId) (name : String) : Exec Value := do
  match (← get).forest.lookup? scope name with
  | some v => return v
  | none => raise (.undefined name)

def define (scope : ScopeId) (name : String) (origin : Origin) (value : Value) : Exec Unit :=
  modify fun m => { m with forest := m.forest.define scope name origin value }

/-- Change the nearest binding of a name, seen from a scope. -/
def assign (scope : ScopeId) (name : String) (value : Value) : Exec Unit := do
  match (← get).forest.owner? scope name with
  | some owner => modify fun m => { m with forest := m.forest.set owner name value }
  | none => raise (.unassignable name)

/-- Make a scope inside another one, or inside none, with bindings of its own. -/
def newScope (parent : Option ScopeId) (origin : Origin) (bindings : List (String × Value)) :
    Exec ScopeId :=
  modifyGet fun m =>
    let id := m.forest.size
    (id, { m with forest := (m.forest.push ⟨parent, []⟩).defineAll id origin bindings })

/-- Make an outermost scope that binds the registered names. -/
def newTop (registry : Registry) : Exec ScopeId :=
  modifyGet fun m => (m.forest.size, { m with forest := m.forest.pushTop registry })

/-- Make a scope for a program of its own, inside a fresh outermost one. -/
def newProgramScope (registry : Registry) : Exec ScopeId :=
  modifyGet fun m =>
    let forest := m.forest.pushProgram registry
    (forest.size - 1, { m with forest := forest })

def newArray (items : List Value) : Exec Value :=
  modifyGet fun m =>
    (.array m.heap.arrays.size,
      { m with heap := { m.heap with arrays := m.heap.arrays.push items } })

def newClosure (closure : Closure) : Exec Value :=
  modifyGet fun m =>
    (.closure m.heap.closures.size,
      { m with heap := { m.heap with closures := m.heap.closures.push closure } })

def print (text : String) : Exec Unit :=
  modify fun m => { m with output := m.output ++ text }

def display (value : Value) : Exec String := do
  ofFault ((← get).heap.display value)

def plain (value : Value) : Exec String := do
  ofFault ((← get).heap.plain value)

theorem run_bind {α β : Type} (a : Exec α) (f : α → Exec β) (m : Machine) :
    (a >>= f).run m = match a.run m with
      | (.ok x, m') => (f x).run m'
      | (.error stop, m') => (.error stop, m') := by
  rcases h : a.run m with ⟨x, m'⟩
  have h' : a m = (x, m') := h
  simp only [bind, ExceptT.bind, ExceptT.mk, StateT.bind, ExceptT.run, h']
  cases x <;> rfl

@[simp] theorem run_pure {α : Type} (x : α) (m : Machine) :
    (pure x : Exec α).run m = (.ok x, m) := rfl

@[simp] theorem run_throw {α : Type} (stop : Stop) (m : Machine) :
    (throw stop : Exec α).run m = (.error stop, m) := rfl

theorem run_locate {α : Type} (position : Option Position) (a : Exec α) (m : Machine) :
    (locate position a).run m = match a.run m with
      | (.ok x, m') => (.ok x, m')
      | (.error stop, m') => (.error (stop.locate position), m') := by
  rcases h : a.run m with ⟨x, m'⟩
  have h' : a m = (x, m') := h
  simp only [locate, tryCatch, tryCatchThe, MonadExceptOf.tryCatch, ExceptT.tryCatch, ExceptT.mk,
    bind, StateT.bind, ExceptT.run, h']
  cases x <;> rfl

end Exec

end Egg
