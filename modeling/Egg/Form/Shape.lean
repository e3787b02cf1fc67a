import Egg.Error

namespace Egg

/-- A well-shaped application of a special form. -/
inductive Special where
  | conditional (test yes no : Expr)
  | loop (test body : Expr)
  | sequence (body : List Expr)
  | define (name : String) (origin : Origin) (value : Expr)
  | assign (name : String) (value : Expr)
  | function (parameters : List String) (body : Expr)

namespace Form

/-- The name that an argument has to be. -/
def wordAt (form : Form) : Expr → Except Error (String × Origin)
  | .name x origin _ => .ok (x, origin)
  | e => .error ⟨.notWord form, e.position⟩

/-- The shape of an application of a special form to arguments. -/
def shape (form : Form) (arguments : List Expr) : Except Error Special :=
  match form, arguments with
  | conditional, [test, yes, no] => .ok (.conditional test yes no)
  | conditional, es => .error ⟨.argumentCount form 3 es.length, none⟩
  | loop, [test, body] => .ok (.loop test body)
  | loop, es => .error ⟨.argumentCount form 2 es.length, none⟩
  | sequence, es => .ok (.sequence es)
  | define, [name, value] => do
    let (x, origin) ← form.wordAt name
    return .define x origin value
  | define, es => .error ⟨.argumentCount form 2 es.length, none⟩
  | assign, [name, value] => do
    let (x, _) ← form.wordAt name
    return .assign x value
  | assign, es => .error ⟨.argumentCount form 2 es.length, none⟩
  | function, es =>
    match es.getLast? with
    | none => .error ⟨.noBody, none⟩
    | some body => do
      let words ← es.dropLast.mapM form.wordAt
      return .function (words.map (·.1)) body

end Form

/-- The special form that an expression stands for when it is applied. A bound name does not
change that. -/
def Expr.form? : Expr → Option Form
  | .name x _ _ => Form.ofWord? x
  | _ => none

end Egg
