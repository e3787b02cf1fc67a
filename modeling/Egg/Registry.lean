import Egg.Scope

namespace Egg

/-- The names a host program provides: constants and builtins, each in the order of registration,
and the serial number of the next builtin. -/
structure Registry where
  constants : List (String × Value)
  builtins : List Builtin
  nextSerial : Nat

namespace Registry

/-- The booleans, and the primitives under their own words. -/
def standard : Registry where
  constants := [("true", .bool true), ("false", .bool false)]
  builtins := Primitive.all.zipIdx.map fun (p, i) => ⟨p.word, p, i⟩
  nextSerial := Primitive.all.length

def addConstant (r : Registry) (name : String) (value : Value) : Registry :=
  { r with constants := r.constants.filter (·.1 ≠ name) ++ [(name, value)] }

def builtin? (r : Registry) (name : String) : Option Builtin :=
  r.builtins.find? (·.name = name)

def addBuiltin (r : Registry) (name : String) (primitive : Primitive) : Registry :=
  { r with
    builtins := r.builtins.filter (·.name ≠ name) ++ [⟨name, primitive, r.nextSerial⟩]
    nextSerial := r.nextSerial + 1 }

/-- All registered names with their values. A builtin comes after a constant of the same name and
takes its place. -/
def bindings (r : Registry) : List (String × Value) :=
  r.constants ++ r.builtins.map fun b => (b.name, .builtin b)

end Registry

namespace Forest

/-- The forest with one more outermost scope, which binds the registered names. -/
def pushTop (f : Forest) (registry : Registry) : Forest :=
  (f.push ⟨none, []⟩).defineAll f.size .host registry.bindings

/-- The forest with a scope for a program of its own, inside a fresh outermost one. The scope is
the last of the forest. -/
def pushProgram (f : Forest) (registry : Registry) : Forest :=
  (f.pushTop registry).push ⟨some f.size, []⟩

end Forest

end Egg
