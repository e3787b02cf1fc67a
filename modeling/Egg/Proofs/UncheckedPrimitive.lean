import Egg.Proofs.BigStepEvaluation

/-!
The primitives without checks of their own. Their bodies take their arguments apart, pick items
from lists and divide as if nothing could go wrong there; what could go wrong is a slip. Behind
the check of the number of arguments, and behind the guards that the bodies do have, there is no
slip.
-/

namespace Egg

open Exec

/-- What goes wrong where something was taken for granted: there are more or fewer arguments than
expected, an item is not there, or the divisor is zero. -/
inductive Slip where
  | unpacking
  | noItem
  | zeroDivision
deriving DecidableEq, Repr

abbrev Unchecked (α : Type) : Type := ExceptT Slip Exec α

namespace Unchecked

def step {α : Type} (x : Exec α) : Unchecked α :=
  ExceptT.lift x

def pair : List Value → Unchecked (Value × Value)
  | [x, y] => pure (x, y)
  | _ => throw Slip.unpacking

/-- The item of a list at an index. Negative indices count from the end. -/
def item (values : List Value) (index : Int) : Unchecked Value :=
  let index := if index < 0 then index + values.length else index
  match if index < 0 then none else values[index.toNat]? with
  | some v => pure v
  | none => throw Slip.noItem

/-- The quotient of two numbers, of which the second must not be zero. -/
def quotient (a b : Number) : Unchecked Number :=
  if b.eq (.int 0) then throw Slip.zeroDivision else step (ofOverflow (a.div b))

/-- Divide, where a zero divisor has a rule of its own. -/
def divide (a b : Number) : Unchecked Number :=
  if b.eq (.int 0) then step (ofOverflow (a.div b)) else quotient a b

end Unchecked

open Unchecked

def Primitive.body (p : Primitive) (arguments : List Value) : Unchecked Value :=
  match p with
  | .add => do
    let (x, y) ← pair arguments
    step (addition x y)
  | .sub => do
    let (x, y) ← pair arguments
    step (sub.arithmetic Number.sub x y)
  | .mul => do
    let (x, y) ← pair arguments
    step (mul.arithmetic Number.mul x y)
  | .div => do
    let (x, y) ← pair arguments
    let (a, b) ← step (div.numbers x y)
    return .number (← divide a b)
  | .equal => do
    let (x, y) ← pair arguments
    return .bool (x.equals y)
  | .less => do
    let (x, y) ← pair arguments
    step (less.comparison x y)
  | .greater => do
    let (x, y) ← pair arguments
    step (greater.comparison x y)
  | .array => step (newArray arguments)
  | .length => do
    let array ← item arguments 0
    let values ← step (length.items array)
    return .number (.int values.length)
  | .element => do
    let array ← item arguments 0
    let values ← step (element.items array)
    let index ← item arguments 1
    match index with
    | .number n => do
      let x ← step (ofOverflow n.toFloat)
      match if (Number.float x).toInt?.isSome then n.toInt? else none with
      | some i =>
        if i < 0 ∨ values.length ≤ i then step (raise (.outOfRange i values.length))
        else item values i
      | none => step (do raise (.notIndex (← display index)))
    | _ => step (do raise (.notIndex (← display index)))
  | .print => do
    let value ← item arguments 0
    step (printLine value)

/-- Call a builtin. The number of arguments is checked before anything else. -/
def Builtin.carryOut (b : Builtin) (arguments : List Value) : Unchecked Value :=
  match b.primitive.arity with
  | some n =>
    if arguments.length = n then b.primitive.body arguments
    else step (do raise (.wrongArity (← display (.builtin b)) n arguments.length))
  | none => b.primitive.body arguments

namespace Unchecked

variable {α β : Type}

/-- That an execution does not slip, and does what another one does. -/
def Follows (x : Unchecked α) (y : Exec α) : Prop :=
  x.run = Except.ok <$> y

theorem follows_step (y : Exec α) : (step y).Follows y := rfl

theorem follows_pure (a : α) : (pure a : Unchecked α).Follows (pure a) := by
  simp [Follows]

theorem Follows.bind {x : Unchecked α} {y : Exec α} {f : α → Unchecked β} {g : α → Exec β}
    (h : x.Follows y) (hf : ∀ a, (f a).Follows (g a)) : (x >>= f).Follows (y >>= g) := by
  have hrun : ∀ a, (f a).run = Except.ok <$> g a := hf
  rw [Follows, ExceptT.run_bind, h]
  simp [hrun]

theorem item_zero (x : Value) (xs : List Value) : item (x :: xs) 0 = pure x := by
  simp [item]

theorem item_one (x y : Value) (xs : List Value) : item (x :: y :: xs) 1 = pure y := by
  simp [item]

theorem follows_item (values : List Value) (i : Int) :
    (if i < 0 ∨ values.length ≤ i then step (raise (.outOfRange i values.length))
      else item values i).Follows
      (match if i < 0 then none else values[i.toNat]? with
        | some v => pure v
        | none => raise (.outOfRange i values.length)) := by
  by_cases hneg : i < 0
  · simpa [hneg] using follows_step _
  · by_cases hlength : values.length ≤ i
    · have hnone : values[i.toNat]? = none := List.getElem?_eq_none (by omega)
      simpa [hneg, hlength, hnone] using follows_step _
    · have hlt : i.toNat < values.length := by omega
      simpa [hneg, hlength, item, hlt] using follows_pure _

theorem follows_divide (a b : Number) : (divide a b).Follows (ofOverflow (a.div b)) := by
  by_cases hzero : b.eq (.int 0) = true
  · simpa [divide, hzero] using follows_step _
  · simpa [divide, hzero, quotient] using follows_step _

theorem follows_body (b : Builtin) {arguments : List Value}
    (harity : ∀ n, b.primitive.arity = some n → arguments.length = n) :
    (b.primitive.body arguments).Follows (b.apply arguments) := by
  obtain ⟨name, p, serial⟩ := b
  cases p with
  | array => exact follows_step _
  | length =>
      obtain ⟨x, rfl⟩ := List.length_eq_one_iff.mp (harity 1 rfl)
      simp only [Primitive.body, item_zero, pure_bind]
      exact (follows_step _).bind fun _ => follows_pure _
  | print =>
      obtain ⟨x, rfl⟩ := List.length_eq_one_iff.mp (harity 1 rfl)
      simp only [Primitive.body, item_zero, pure_bind]
      exact follows_step _
  | add | sub | mul | less | greater =>
      obtain ⟨x, y, rfl⟩ := List.length_eq_two.mp (harity 2 rfl)
      simp only [Primitive.body, pair, pure_bind]
      exact follows_step _
  | equal =>
      obtain ⟨x, y, rfl⟩ := List.length_eq_two.mp (harity 2 rfl)
      simp only [Primitive.body, pair, pure_bind]
      exact follows_pure _
  | div =>
      obtain ⟨x, y, rfl⟩ := List.length_eq_two.mp (harity 2 rfl)
      simp only [Primitive.body, pair, pure_bind]
      exact (follows_step _).bind fun _ => (follows_divide _ _).bind fun _ => follows_pure _
  | element =>
      obtain ⟨x, y, rfl⟩ := List.length_eq_two.mp (harity 2 rfl)
      simp only [Primitive.body, item_zero, item_one, pure_bind]
      refine (follows_step _).bind fun values => ?_
      cases y with
      | number n =>
          refine (follows_step _).bind fun x => ?_
          cases if (Number.float x).toInt?.isSome then n.toInt? else none with
          | some i => exact follows_item values i
          | none => exact follows_step _
      | bool | string | array | closure | builtin => exact follows_step _

end Unchecked

/-- A call of a builtin never slips, and does what applying the builtin does. -/
theorem Builtin.follows_carryOut (b : Builtin) (arguments : List Value) :
    (b.carryOut arguments).Follows (b.apply arguments) := by
  unfold carryOut
  split
  · rename_i n harity
    split
    · rename_i hlength
      exact follows_body b fun k hk => by rw [hlength, ← Option.some.inj (harity.symm.trans hk)]
    · rename_i hlength
      rw [apply_of_arity_ne harity hlength]
      exact follows_step _
  · rename_i harity
    exact follows_body b fun k hk => by rw [harity] at hk; cases hk

end Egg
