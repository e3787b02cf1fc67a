import Egg.Expr.Basic

namespace Egg

abbrev ScopeId := Nat

/-- A name bound in a scope. The origin is that of the name when it was first bound. -/
structure Binding where
  name : String
  origin : Origin
  value : Value
deriving DecidableEq

/-- One scope: the scope around it, and its own bindings in the order in which they were made. -/
structure Scope where
  parent : Option ScopeId
  bindings : List Binding
deriving DecidableEq

namespace Scope

def get? (s : Scope) (name : String) : Option Value :=
  (s.bindings.find? (·.name = name)).map (·.value)

def binds (s : Scope) (name : String) : Bool :=
  s.bindings.any (·.name = name)

def set (s : Scope) (name : String) (value : Value) : Scope :=
  { s with
    bindings := s.bindings.map fun b => if b.name = name then { b with value := value } else b }

/-- Bind a name, or change its value if it is bound already. -/
def put (s : Scope) (name : String) (origin : Origin) (value : Value) : Scope :=
  if s.binds name then s.set name value
  else { s with bindings := s.bindings ++ [⟨name, origin, value⟩] }

/-- The bindings by name, in the order of code points. -/
def sorted (s : Scope) : List Binding :=
  s.bindings.mergeSort fun a b => !(b.name < a.name)

theorem get?_isSome (s : Scope) (name : String) : (s.get? name).isSome = s.binds name := by
  simp only [get?, binds, Option.isSome_map, List.isSome_find?]

end Scope

/-- All scopes there are, each with a number. -/
structure Forest where
  scopes : Array Scope

namespace Forest

def empty : Forest := ⟨#[]⟩

/-- The number of the next scope. -/
def size (f : Forest) : Nat := f.scopes.size

def get? (f : Forest) (id : ScopeId) : Option Scope := f.scopes[id]?

/-- The forest with one more scope, which gets the number `f.size`. -/
def push (f : Forest) (scope : Scope) : Forest := ⟨f.scopes.push scope⟩

/-- A scope, the scope around it, and so on outwards. The scope around another is the older one.
-/
def chain (f : Forest) (id : ScopeId) : List ScopeId :=
  match f.get? id with
  | none => []
  | some scope =>
    id :: match scope.parent with
      | none => []
      | some parent => if parent < id then f.chain parent else []
termination_by id

/-- The nearest scope outwards that itself binds a name. -/
def owner? (f : Forest) (id : ScopeId) (name : String) : Option ScopeId :=
  (f.chain id).find? fun i => (f.get? i).any (·.binds name)

def lookup? (f : Forest) (id : ScopeId) (name : String) : Option Value :=
  (f.chain id).findSome? fun i => (f.get? i).bind (·.get? name)

def define (f : Forest) (id : ScopeId) (name : String) (origin : Origin) (value : Value) : Forest :=
  ⟨f.scopes.modify id (·.put name origin value)⟩

def defineAll (f : Forest) (id : ScopeId) (origin : Origin) (bindings : List (String × Value)) :
    Forest :=
  bindings.foldl (fun f b => f.define id b.1 origin b.2) f

def set (f : Forest) (id : ScopeId) (name : String) (value : Value) : Forest :=
  ⟨f.scopes.modify id (·.set name value)⟩

/-- How many scopes are around a scope. -/
def depth (f : Forest) (id : ScopeId) : Nat :=
  (f.chain id).length - 1

/-- How a name is shown: one that was read from source text shows that. -/
def displayName (b : Binding) : String :=
  match b.origin with
  | .host => Text.quote b.name
  | .source => "Token('WORD', " ++ Text.quote b.name ++ ")"

/-- How a scope is shown: by its depth and the names that it binds. -/
def describe (f : Forest) (id : ScopeId) : String :=
  let bindings := ((f.get? id).map Scope.sorted).getD []
  let names := ", ".intercalate (bindings.map displayName)
  s!"<Environment depth={f.depth id} names=[{names}]>"

@[simp] theorem size_push (f : Forest) (s : Scope) : (f.push s).size = f.size + 1 := by
  simp [push, size]

@[simp] theorem size_define (f : Forest) (id : ScopeId) (x : String) (o : Origin) (v : Value) :
    (f.define id x o v).size = f.size := by
  simp [define, size]

@[simp] theorem size_set (f : Forest) (id : ScopeId) (x : String) (v : Value) :
    (f.set id x v).size = f.size := by
  simp [set, size]

theorem get?_push (f : Forest) (s : Scope) (i : ScopeId) :
    (f.push s).get? i = if i = f.size then some s else f.get? i :=
  Array.getElem?_push

theorem get?_define (f : Forest) (id i : ScopeId) (x : String) (o : Origin) (v : Value) :
    (f.define id x o v).get? i = if id = i then (f.get? i).map (·.put x o v) else f.get? i := by
  simp [define, get?, Array.getElem?_modify]

theorem get?_set (f : Forest) (id i : ScopeId) (x : String) (v : Value) :
    (f.set id x v).get? i = if id = i then (f.get? i).map (·.set x v) else f.get? i := by
  simp [set, get?, Array.getElem?_modify]

end Forest

end Egg
