import Egg.Program
import Egg.Proofs.Above
import Egg.Proofs.Reachability

/-!
Execution above a base. Every execution does above a base what it does without: it stops in the
same way or gives the same value, up to the numbers above the base, and it leaves the same machine
behind, above the same base. No execution can tell what it stands on, or change it.
-/

namespace Egg

/-- That the body of every closure was read from source text. -/
def Heap.HasPlainBodies (heap : Heap) : Prop :=
  ∀ c ∈ heap.closures, c.body.IsPlain

/-- That an execution does above a base what another one does without it. -/
def Exec.Mirrors (b : Base) {α β : Type} (φ : α → β) (x : Exec α) (y : Exec β) : Prop :=
  ∀ m : Machine, m.heap.HasPlainBodies →
    y.run (m.above b) = ((x.run m).1.map φ, (x.run m).2.above b) ∧ (x.run m).2.heap.HasPlainBodies

variable {b : Base}

namespace Exec.Mirrors

section Steps

variable {α β γ δ : Type} {φ : α → β} {ψ : γ → δ} {x : Exec α} {y : Exec β}

theorem pure {a : α} {a' : β} (h : φ a = a') : Mirrors b φ (Pure.pure a) (Pure.pure a') := by
  subst h
  exact fun m hm => ⟨rfl, hm⟩

theorem throw (stop : Stop) : Mirrors b φ (throw stop) (throw stop) :=
  fun _ hm => ⟨rfl, hm⟩

theorem raise (cause : Cause) : Mirrors b φ (raise cause) (raise cause) :=
  throw _

theorem run_cases (h : Mirrors b φ x y) {m : Machine} (hm : m.heap.HasPlainBodies) :
    ∃ m', m'.heap.HasPlainBodies ∧
      ((∃ a, x.run m = (.ok a, m') ∧ y.run (m.above b) = (.ok (φ a), m'.above b)) ∨
        ∃ stop, x.run m = (.error stop, m') ∧ y.run (m.above b) = (.error stop, m'.above b)) := by
  obtain ⟨hrun, hplain⟩ := h m hm
  refine ⟨(x.run m).2, hplain, ?_⟩
  rw [hrun]
  rcases x.run m with ⟨stop | a, m'⟩
  · exact .inr ⟨stop, rfl, rfl⟩
  · exact .inl ⟨a, rfl, rfl⟩

theorem bind {f : α → Exec γ} {g : β → Exec δ} (hx : Mirrors b φ x y)
    (hf : ∀ a, Mirrors b ψ (f a) (g (φ a))) : Mirrors b ψ (x >>= f) (y >>= g) := by
  intro m hm
  obtain ⟨m', hplain, ⟨a, hrun, hrun'⟩ | ⟨stop, hrun, hrun'⟩⟩ := hx.run_cases hm
  · rw [run_bind, run_bind, hrun, hrun']
    exact hf a m' hplain
  · rw [run_bind, run_bind, hrun, hrun']
    exact ⟨rfl, hplain⟩

theorem locate (p : Option Position) (hx : Mirrors b φ x y) :
    Mirrors b φ (locate p x) (locate p y) := by
  intro m hm
  obtain ⟨m', hplain, ⟨a, hrun, hrun'⟩ | ⟨stop, hrun, hrun'⟩⟩ := hx.run_cases hm
  · rw [run_locate, run_locate, hrun, hrun']
    exact ⟨rfl, hplain⟩
  · rw [run_locate, run_locate, hrun, hrun']
    exact ⟨rfl, hplain⟩

theorem modifyGet {f : Machine → α × Machine} {g : Machine → β × Machine}
    (h : ∀ m, g (m.above b) = (φ (f m).1, (f m).2.above b))
    (hplain : ∀ m, m.heap.HasPlainBodies → (f m).2.heap.HasPlainBodies) :
    Mirrors b φ (modifyGet f) (modifyGet g) := by
  intro m hm
  refine ⟨?_, hplain m hm⟩
  change (Except.ok (g (m.above b)).1, (g (m.above b)).2) = _
  rw [h]
  rfl

theorem ofFault (r : Except Fault α) : Mirrors b id (ofFault r) (ofFault r) := by
  cases r with
  | ok a => exact .pure rfl
  | error fault => exact .throw _

theorem ofOverflow (r : Except Overflow α) : Mirrors b id (ofOverflow r) (ofOverflow r) :=
  ofFault _

end Steps

theorem display (v : Value) : Mirrors b id (display v) (display (v.above b)) := by
  intro m hm
  change (Exec.ofFault ((m.heap.above b).display (v.above b))).run (m.above b) = _ ∧ _
  rw [Heap.display_above]
  exact ofFault _ m hm

theorem raiseShown {α β : Type} {φ : α → β} (cause : String → String → Cause) (v w : Value) :
    Mirrors b φ (do Exec.raise (cause (← Exec.display v) (← Exec.display w)))
      (do Exec.raise (cause (← Exec.display (v.above b)) (← Exec.display (w.above b)))) :=
  (display v).bind fun _ => (display w).bind fun _ => raise _

theorem plain (v : Value) : Mirrors b id (plain v) (plain (v.above b)) := by
  intro m hm
  change (Exec.ofFault ((m.heap.above b).plain (v.above b))).run (m.above b) = _ ∧ _
  rw [Heap.plain_above]
  exact ofFault _ m hm

theorem lookup (s : ScopeId) (x : String) :
    Mirrors b (Value.above b) (lookup s x) (lookup (b.forest.size + s) x) := by
  intro m hm
  rw [run_lookup, run_lookup, Machine.above, Forest.lookup?_above]
  cases m.forest.lookup? s x with
  | none => exact ⟨rfl, hm⟩
  | some v => exact ⟨rfl, hm⟩

theorem define (s : ScopeId) (x : String) (o : Origin) (v : Value) :
    Mirrors b id (define s x o v) (define (b.forest.size + s) x o (v.above b)) := by
  refine modifyGet (fun m => ?_) fun _ hm => hm
  rw [Machine.above, Machine.above, Forest.above_define]

theorem assign (s : ScopeId) (x : String) (v : Value) :
    Mirrors b id (assign s x v) (assign (b.forest.size + s) x (v.above b)) := by
  intro m hm
  rw [run_assign, run_assign, Machine.above, Forest.owner?_above]
  cases m.forest.owner? s x with
  | none => exact ⟨rfl, hm⟩
  | some owner =>
      refine ⟨?_, hm⟩
      simp only [Machine.above, Machine.set, Forest.above_set]
      rfl

theorem newScope (parent : Option ScopeId) (o : Origin) (bindings : List (String × Value)) :
    Mirrors b (b.forest.size + ·) (newScope parent o bindings)
      (newScope (parent.map (b.forest.size + ·)) o
        (bindings.map (Prod.map id (Value.above b)))) := by
  refine modifyGet (fun m => ?_) fun _ hm => hm
  simp only [Machine.above, Forest.above_defineAll, Forest.above_push, Forest.size_above]
  rfl

theorem newArray (items : List Value) :
    Mirrors b (Value.above b) (newArray items) (newArray (items.map (Value.above b))) := by
  refine modifyGet (fun m => ?_) fun _ hm => hm
  simp only [Machine.above, Heap.above_pushArray, Heap.size_arrays_above]
  rfl

theorem newClosure {c : Closure} (hc : c.body.IsPlain) :
    Mirrors b (Value.above b) (newClosure c) (newClosure (c.above b)) := by
  refine modifyGet (fun m => ?_) fun m hm c' hc' => ?_
  · simp only [Machine.above, Heap.above_pushClosure, Heap.size_closures_above]
    rfl
  · rcases Array.mem_push.mp hc' with hc' | rfl
    · exact hm c' hc'
    · exact hc

theorem print (text : String) : Mirrors b id (print text) (print text) :=
  modifyGet (fun _ => rfl) fun _ hm => hm

theorem whileTrue {test test' body body' : Exec Value}
    (htest : Mirrors b (Value.above b) test test')
    (hbody : Mirrors b (Value.above b) body body') (rounds : Nat) :
    Mirrors b (Value.above b) (whileTrue test body rounds) (whileTrue test' body' rounds) := by
  induction rounds with
  | zero => exact .throw _
  | succ rounds ih =>
      refine htest.bind fun v => ?_
      rw [Value.isTruthy_above]
      split
      · exact hbody.bind fun _ => ih
      · exact .pure rfl

end Exec.Mirrors

open Exec

namespace Primitive

theorem mirrors_numbers (p : Primitive) (v w : Value) :
    Mirrors b id (p.numbers v w) (p.numbers (v.above b) (w.above b)) := by
  cases v with
  | number n =>
      cases w with
      | number n' => exact .pure rfl
      | bool | string | array | closure | builtin => exact .raiseShown (.notNumbers p) _ _
  | bool | string | array | closure | builtin => exact .raiseShown (.notNumbers p) _ w

theorem mirrors_arithmetic (p : Primitive) (operation : Number → Number → Except Overflow Number)
    (v w : Value) :
    Mirrors b (Value.above b) (p.arithmetic operation v w)
      (p.arithmetic operation (v.above b) (w.above b)) :=
  (mirrors_numbers p v w).bind fun _ => (Mirrors.ofOverflow _).bind fun _ => .pure rfl

theorem mirrors_addition (v w : Value) :
    Mirrors b (Value.above b) (addition v w) (addition (v.above b) (w.above b)) := by
  have hjoin : Mirrors b (Value.above b) (do return .string ((← plain v) ++ (← plain w)))
      (do return .string ((← plain (v.above b)) ++ (← plain (w.above b)))) :=
    (Mirrors.plain v).bind fun _ => (Mirrors.plain w).bind fun _ => .pure rfl
  have hadd := mirrors_arithmetic (b := b) .add Number.add v w
  cases v with
  | string => exact hjoin
  | bool | number | array | closure | builtin =>
      cases w with
      | string => exact hjoin
      | bool | number | array | closure | builtin => exact hadd

theorem mirrors_comparison (p : Primitive) (v w : Value) :
    Mirrors b (Value.above b) (p.comparison v w) (p.comparison (v.above b) (w.above b)) := by
  cases v with
  | number n =>
      cases w with
      | number n' => exact .pure rfl
      | bool | string | array | closure | builtin => exact .raiseShown (.notOrdered p) _ _
  | string t =>
      cases w with
      | string t' => exact .pure rfl
      | bool | number | array | closure | builtin => exact .raiseShown (.notOrdered p) _ _
  | bool | array | closure | builtin => exact .raiseShown (.notOrdered p) _ w

theorem mirrors_items (p : Primitive) (v : Value) :
    Mirrors b (List.map (Value.above b)) (p.items v) (p.items (v.above b)) := by
  cases v with
  | array id =>
      intro m hm
      refine ⟨?_, hm⟩
      change (Except.ok ((m.above b).heap.arrays[b.heap.arrays.size + id]?.getD []), m.above b) = _
      rw [Machine.above, Heap.getD_arrays_above]
      rfl
  | bool | number | string | closure | builtin => exact (Mirrors.display _).bind fun _ => .raise _

theorem mirrors_elementAt (v w : Value) :
    Mirrors b (Value.above b) (elementAt v w) (elementAt (v.above b) (w.above b)) := by
  refine (mirrors_items _ v).bind fun items => ?_
  cases w with
  | number n =>
      refine (Mirrors.ofOverflow _).bind fun x => ?_
      rw [id_eq]
      cases if (Number.float x).toInt?.isSome then n.toInt? else none with
      | none => exact (Mirrors.display (.number n)).bind fun _ => .raise _
      | some i =>
          have hitem : (if i < 0 then none else (items.map (Value.above b))[i.toNat]?) =
              (if i < 0 then none else items[i.toNat]?).map (Value.above b) := by
            split
            · rfl
            · exact List.getElem?_map
          simp only [hitem, List.length_map]
          cases if i < 0 then none else items[i.toNat]? with
          | none => exact .raise _
          | some item => exact .pure rfl
  | bool | string | array | closure | builtin => exact (Mirrors.display _).bind fun _ => .raise _

theorem mirrors_printLine (v : Value) :
    Mirrors b (Value.above b) (printLine v) (printLine (v.above b)) :=
  (Mirrors.plain v).bind fun _ => (Mirrors.print _).bind fun _ => .pure rfl

end Primitive

theorem Builtin.mirrors_apply (f : Builtin) (arguments : List Value) :
    Mirrors b (Value.above b) (f.apply arguments) (f.apply (arguments.map (Value.above b))) := by
  -- a wrong number of arguments is an error on both sides; otherwise the arity gives their shape
  cases harity : f.primitive.arity with
  | none =>
      obtain ⟨name, primitive, serial⟩ := f
      cases primitive <;> cases harity
      exact Mirrors.newArray arguments
  | some n =>
      by_cases hlength : arguments.length = n
      · obtain ⟨name, primitive, serial⟩ := f
        subst hlength
        match arguments with
        | [] => cases primitive <;> cases harity
        | [x] =>
            cases primitive <;> cases harity
            · exact (Primitive.mirrors_items .length x).bind fun _ => .pure (by simp [Value.above])
            · exact Primitive.mirrors_printLine x
        | [x, y] =>
            cases primitive <;> cases harity
            · exact Primitive.mirrors_addition x y
            · exact Primitive.mirrors_arithmetic .sub Number.sub x y
            · exact Primitive.mirrors_arithmetic .mul Number.mul x y
            · exact Primitive.mirrors_arithmetic .div Number.div x y
            · exact .pure (congrArg Value.bool (Value.equals_above b x y).symm)
            · exact Primitive.mirrors_comparison .less x y
            · exact Primitive.mirrors_comparison .greater x y
            · exact Primitive.mirrors_elementAt x y
        | _ :: _ :: _ :: _ => cases primitive <;> cases harity
      · intro m hm
        rw [run_apply_of_arity_ne harity hlength,
          run_apply_of_arity_ne harity (by simpa using hlength), List.length_map]
        exact ⟨rfl, hm⟩

/-- That an evaluator does above a base what it does without. -/
def Uniform (b : Base) (eval : Evaluator) : Prop :=
  ∀ e s, e.IsPlain → Mirrors b (Value.above b) (eval e s) (eval e (b.forest.size + s))

namespace Uniform

variable {eval : Evaluator} {s : ScopeId}

theorem apply (heval : Uniform b eval) {id : ClosureId} {c : Closure} (hc : c.body.IsPlain)
    (arguments : List Value) :
    Mirrors b (Value.above b) (c.apply eval id arguments)
      ((c.above b).apply eval (b.heap.closures.size + id) (arguments.map (Value.above b))) := by
  rw [Closure.apply, Closure.apply, List.length_map]
  change Mirrors b _ _ (if arguments.length = c.parameters.length then _ else _)
  split
  · rw [List.zip_map_right]
    exact (Mirrors.newScope (some c.scope) .source _).bind fun s => heval c.body s hc
  · exact (Mirrors.display (.closure id)).bind fun _ => .raise _

theorem call (heval : Uniform b eval) (callee : Value) (arguments : List Value) :
    Mirrors b (Value.above b) (call eval callee arguments)
      (call eval (callee.above b) (arguments.map (Value.above b))) := by
  cases callee with
  | builtin f => exact f.mirrors_apply arguments
  | closure id =>
      -- what the closure is depends on the machine, so its two calls are compared on one
      intro m hm
      rw [Value.above, run_call_id, run_call_id, Machine.above, Heap.getElem?_closures_above]
      cases hc : m.heap.closures[id]? with
      | none => exact ⟨rfl, hm⟩
      | some c => exact heval.apply (hm c (Array.mem_of_getElem? hc)) arguments m hm
  | bool | number | string | array => exact .raise _

theorem sequence (heval : Uniform b eval) (v : Value) {es : List Expr} (hes : ∀ e ∈ es, e.IsPlain) :
    Mirrors b (Value.above b) (evalSequence eval s v es)
      (evalSequence eval (b.forest.size + s) (v.above b) es) := by
  induction es generalizing v with
  | nil => exact .pure rfl
  | cons e es ih =>
      obtain ⟨he, hes⟩ := List.forall_mem_cons.mp hes
      exact (heval e s he).bind fun v => ih v hes

theorem arguments (heval : Uniform b eval) {es : List Expr} (hes : ∀ e ∈ es, e.IsPlain) :
    Mirrors b (List.map (Value.above b)) (evalArguments eval s es)
      (evalArguments eval (b.forest.size + s) es) := by
  induction es with
  | nil => exact .pure rfl
  | cons e es ih =>
      obtain ⟨he, hes⟩ := List.forall_mem_cons.mp hes
      exact (heval e s he).bind fun v => (ih hes).bind fun vs => .pure rfl

theorem special (heval : Uniform b eval) (rounds : Nat) {form : Special}
    (hform : ∀ e ∈ form.parts, e.IsPlain) :
    Mirrors b (Value.above b) (form.eval eval rounds s)
      (form.eval eval rounds (b.forest.size + s)) := by
  cases form with
  | conditional test yes no =>
      refine (heval test s (hform test (by simp))).bind fun v => ?_
      rw [Value.isTruthy_above]
      split
      · exact heval yes s (hform yes (by simp))
      · exact heval no s (hform no (by simp))
  | loop test body =>
      exact (heval test s (hform test (by simp))).whileTrue
        (heval body s (hform body (by simp))) rounds
  | sequence body => exact heval.sequence (.bool false) hform
  | define name origin e =>
      refine (heval e s (hform e (by simp))).bind fun v => ?_
      exact (Mirrors.define s name origin v).bind fun _ => .pure rfl
  | assign name e =>
      refine (heval e s (hform e (by simp))).bind fun v => ?_
      exact (Mirrors.assign s name v).bind fun _ => .pure rfl
  | function parameters body => exact Mirrors.newClosure (hform body (by simp))

theorem step (heval : Uniform b eval) (rounds : Nat) : Uniform b (evalStep eval rounds) := by
  intro e s he
  cases he with
  | literal hv => exact .pure (Value.above_of_isPlain b hv)
  | name => exact .lookup s _
  | foreign => exact .throw _
  | @apply f es p hf hes =>
      rw [evalStep, evalStep]
      -- whether a special form is applied, and in which shape, is a matter of the expression alone
      split
      · split
        · rename_i hshape
          have hshaped := Form.shape_eq_ok_iff.mp hshape
          exact heval.special rounds fun e he => hes e (hshaped.mem_of_mem_parts e he)
        · exact .throw _
      · refine (heval f s hf).bind fun callee => ?_
        rw [Value.isCallable_above]
        split
        · exact (heval.arguments hes).bind fun vs => heval.call callee vs
        · exact .raise _

end Uniform

/-- Evaluation to any depth does above a base what it does without. -/
theorem uniform_eval (b : Base) (rounds depth : Nat) : Uniform b (eval rounds depth) := by
  induction depth with
  | zero => exact fun _ _ _ => .throw _
  | succ depth ih => exact fun e s he => (ih.step rounds e s he).locate e.position

theorem Program.mirrors_run (limits : Limits) (s : ScopeId) (source : String) :
    Mirrors b (Value.above b) (run limits s source) (run limits (b.forest.size + s) source) := by
  intro m hm
  rw [run_eq, run_eq]
  cases hparse : Expr.parse limits.nesting source with
  | error stop => exact ⟨rfl, hm⟩
  | ok e =>
      have heval := uniform_eval b limits.rounds limits.depth e s (Expr.isPlain_of_parse hparse)
      obtain ⟨m', hplain, ⟨v, hrun, hrun'⟩ | ⟨stop, hrun, hrun'⟩⟩ := heval.run_cases hm
      · simp only [evalWithin, hrun, hrun']
        exact ⟨rfl, hplain⟩
      · simp only [evalWithin, hrun, hrun']
        exact ⟨rfl, hplain⟩

end Egg
