import Egg.Primitive
import Mathlib.Data.List.Basic
import Mathlib.Tactic.SplitIfs

namespace Egg

open Exec

/-- A value that refers to nothing on the heap. -/
def Value.IsPlain : Value → Prop
  | .array _ | .closure _ => False
  | _ => True

theorem Registry.isPlain_of_mem_standard {x : String × Value} (h : x ∈ Registry.standard.bindings) :
    x.2.IsPlain := by
  rcases List.mem_append.mp h with hx | hx
  · simp only [Registry.standard, List.mem_cons, List.not_mem_nil, or_false] at hx
    rcases hx with rfl | rfl
    · trivial
    · trivial
  · obtain ⟨builtin, -, rfl⟩ := List.mem_map.mp hx
    trivial

namespace Builtin

/-- The ways in which a builtin ends when it is applied to arguments. -/
inductive Effect (arguments : List Value) (m : Machine) : Except Stop Value × Machine → Prop where
  | plain {v : Value} : v.IsPlain → Effect arguments m (.ok v, m)
  | item {id : ArrayId} {items : List Value} {v : Value} :
      .array id ∈ arguments → m.heap.arrays[id]? = some items → v ∈ items →
      Effect arguments m (.ok v, m)
  | array :
      Effect arguments m (.ok (.array m.heap.arrays.size),
        { m with heap := { m.heap with arrays := m.heap.arrays.push arguments } })
  | print {v : Value} {text : String} :
      v ∈ arguments → Effect arguments m (.ok v, { m with output := m.output ++ text })
  | raise {cause : Cause} :
      cause.kind = .mistyped ∨ cause.kind = .index →
      Effect arguments m (.error (.raised ⟨cause, none⟩), m)
  | overflow {kind : Overflow} : Effect arguments m (.error (.fault (.overflow kind)), m)

end Builtin

/-- An execution that leaves the machine as it is and stops only where a number is too large. -/
def Exec.Quiet {α : Type} (x : Exec α) : Prop :=
  ∀ m, (∃ a, x.run m = (.ok a, m)) ∨ ∃ kind, x.run m = (.error (.fault (.overflow kind)), m)

namespace Exec

theorem quiet_ofOverflow {α : Type} (result : Except Overflow α) : Quiet (ofOverflow result) := by
  intro m
  cases result with
  | ok a => exact .inl ⟨a, rfl⟩
  | error kind => exact .inr ⟨kind, rfl⟩

end Exec

theorem exists_of_mapM_error {α β ε : Type} {f : α → Except ε β} {xs : List α} {error : ε}
    (h : xs.mapM f = .error error) : ∃ x ∈ xs, f x = .error error := by
  induction xs with
  | nil => cases h
  | cons x xs ih =>
      rw [List.mapM_cons] at h
      cases hx : f x with
      | error error' =>
          rw [hx] at h
          cases h
          exact ⟨x, by simp, hx⟩
      | ok y =>
          rw [hx] at h
          cases hxs : xs.mapM f with
          | ok ys =>
              rw [hxs] at h
              cases h
          | error error' =>
              rw [hxs] at h
              cases h
              obtain ⟨z, hz, hfz⟩ := ih hxs
              exact ⟨z, by simp [hz], hfz⟩

theorem Heap.displayNumber_error {n : Number} {fault : Fault}
    (h : Heap.displayNumber n = .error fault) : ∃ kind, fault = .overflow kind := by
  unfold Heap.displayNumber at h
  cases htext : n.text with
  | ok t =>
      rw [htext] at h
      cases h
  | error kind =>
      rw [htext] at h
      cases h
      exact ⟨kind, rfl⟩

/-- Where a value cannot be shown, this is because of a number: the value itself, or an item of an
array. -/
theorem Heap.exists_number_of_displayBelow_error {heap : Heap} {bound : ArrayId} {v : Value}
    {fault : Fault} (h : heap.displayBelow bound v = .error fault) :
    ∃ n, displayNumber n = .error fault ∧ (v = .number n ∨
      ∃ (id : ArrayId) (items : List Value), heap.arrays[id]? = some items ∧
        .number n ∈ items) := by
  -- the items of an array are shown below its own number, which is below the bound
  induction bound using Nat.strongRecOn generalizing v fault with
  | ind bound ih =>
      cases v with
      | number n =>
          rw [Heap.displayBelow] at h
          exact ⟨n, h, .inl rfl⟩
      | array id =>
          rw [Heap.displayBelow] at h
          split at h
          · rename_i hid
            cases hitems : (heap.arrays[id]?.getD []).mapM (heap.displayBelow id) with
            | ok texts =>
                rw [hitems] at h
                cases h
            | error fault' =>
                rw [hitems] at h
                cases h
                obtain ⟨item, hmem, hitem⟩ := exists_of_mapM_error hitems
                obtain ⟨n, hn, rfl | hstored⟩ := ih id hid hitem
                · cases harray : heap.arrays[id]? with
                  | none => simp [harray] at hmem
                  | some items =>
                      rw [harray] at hmem
                      exact ⟨n, hn, .inr ⟨id, items, harray, hmem⟩⟩
                · exact ⟨n, hn, .inr hstored⟩
          · cases h
      | bool b => rw [Heap.displayBelow] at h; cases h
      | string t => rw [Heap.displayBelow] at h; cases h
      | closure id => rw [Heap.displayBelow] at h; cases h
      | builtin b => rw [Heap.displayBelow] at h; cases h

theorem Heap.displayBelow_error {heap : Heap} {bound : ArrayId} {v : Value} {fault : Fault}
    (h : heap.displayBelow bound v = .error fault) : ∃ kind, fault = .overflow kind := by
  obtain ⟨n, hn, -⟩ := exists_number_of_displayBelow_error h
  exact displayNumber_error hn

namespace Exec

theorem quiet_ofFault {α : Type} {step : Machine → Except Fault α}
    (h : ∀ m fault, step m = .error fault → ∃ kind, fault = .overflow kind) :
    Quiet (get >>= fun m => ofFault (step m)) := by
  intro m
  have hrun : (get >>= fun m => ofFault (step m) : Exec α).run m = (ofFault (step m)).run m := rfl
  rw [hrun]
  cases hstep : step m with
  | ok a => exact .inl ⟨a, rfl⟩
  | error fault =>
      obtain ⟨kind, rfl⟩ := h m fault hstep
      exact .inr ⟨kind, rfl⟩

theorem quiet_display (v : Value) : Quiet (display v) :=
  quiet_ofFault fun _ _ h => Heap.displayBelow_error h

theorem quiet_plain (v : Value) : Quiet (plain v) := by
  refine quiet_ofFault fun m fault h => ?_
  cases v with
  | string t => cases h
  | bool b => exact Heap.displayBelow_error h
  | number n => exact Heap.displayBelow_error h
  | array id => exact Heap.displayBelow_error h
  | closure id => exact Heap.displayBelow_error h
  | builtin b => exact Heap.displayBelow_error h

end Exec

namespace Builtin

variable {arguments : List Value} {m : Machine}

theorem Effect.bind {α : Type} {x : Exec α} {f : α → Exec Value} (hx : x.Quiet)
    (hf : ∀ a, Effect arguments m ((f a).run m)) : Effect arguments m ((x >>= f).run m) := by
  rcases hx m with ⟨a, ha⟩ | ⟨kind, ha⟩
  · rw [run_bind, ha]
    exact hf a
  · rw [run_bind, ha]
    exact .overflow

theorem effect_notNumbers (p : Primitive) (x y : Value) {f : Number × Number → Exec Value} :
    Effect arguments m ((display x >>= fun left => display y >>= fun right =>
      raise (.notNumbers p left right) >>= f).run m) :=
  .bind (quiet_display x) fun _ => .bind (quiet_display y) fun _ => .raise (.inl rfl)

theorem effect_arithmetic (p : Primitive) (operation : Number → Number → Except Overflow Number)
    (x y : Value) : Effect arguments m ((p.arithmetic operation x y).run m) := by
  unfold Primitive.arithmetic Primitive.numbers
  split
  · rw [pure_bind]
    exact .bind (quiet_ofOverflow _) fun _ => .plain trivial
  · simp only [bind_assoc]
    exact effect_notNumbers p x y

theorem effect_addition (x y : Value) :
    Effect arguments m ((Primitive.addition x y).run m) := by
  unfold Primitive.addition
  split
  · exact .bind (quiet_plain _) fun _ => .bind (quiet_plain _) fun _ => .plain trivial
  · exact .bind (quiet_plain _) fun _ => .bind (quiet_plain _) fun _ => .plain trivial
  · exact effect_arithmetic .add Number.add x y

theorem effect_comparison (p : Primitive) (x y : Value) :
    Effect arguments m ((p.comparison x y).run m) := by
  unfold Primitive.comparison
  split
  · exact .plain trivial
  · exact .plain trivial
  · exact .bind (quiet_display _) fun _ => .bind (quiet_display _) fun _ => .raise (.inl rfl)

theorem effect_items (p : Primitive) (x : Value) {f : List Value → Exec Value}
    (hf : ∀ id, x = .array id →
      Effect arguments m ((f (m.heap.arrays[id]?.getD [])).run m)) :
    Effect arguments m ((p.items x >>= f).run m) := by
  unfold Primitive.items
  split
  · rename_i id
    exact hf id rfl
  · simp only [bind_assoc]
    exact .bind (quiet_display _) fun _ => .raise (.inl rfl)

theorem effect_getElem? {id : ArrayId} {i : Nat} {v : Value} (hid : .array id ∈ arguments)
    (hv : (m.heap.arrays[id]?.getD [])[i]? = some v) :
    Effect arguments m ((pure v : Exec Value).run m) := by
  cases hitems : m.heap.arrays[id]? with
  | none => simp [hitems] at hv
  | some items =>
      rw [hitems] at hv
      exact .item hid hitems (List.mem_of_getElem? hv)

theorem effect_elementAt {x y : Value} (hx : x ∈ arguments) :
    Effect arguments m ((Primitive.elementAt x y).run m) := by
  unfold Primitive.elementAt
  refine effect_items .element x fun id hid => ?_
  split
  · refine .bind (quiet_ofOverflow _) fun _ => ?_
    split
    · split
      · rename_i v hv
        split_ifs at hv
        exact effect_getElem? (hid ▸ hx) hv
      · exact .raise (.inr rfl)
    · exact .bind (quiet_display _) fun _ => .raise (.inl rfl)
  · exact .bind (quiet_display _) fun _ => .raise (.inl rfl)

theorem run_apply_equal {b : Builtin} (h : b.primitive = .equal) (v w : Value) (m : Machine) :
    (b.apply [v, w]).run m = (.ok (.bool (v.equals w)), m) := by
  simp only [apply, h]
  rfl

theorem effect_apply (b : Builtin) (arguments : List Value) (m : Machine) :
    Effect arguments m ((b.apply arguments).run m) := by
  unfold Builtin.apply
  split
  · exact effect_addition _ _
  · exact effect_arithmetic _ _ _ _
  · exact effect_arithmetic _ _ _ _
  · exact effect_arithmetic _ _ _ _
  · exact .plain trivial
  · exact effect_comparison _ _ _
  · exact effect_comparison _ _ _
  · exact .array
  · exact effect_items _ _ fun _ _ => .plain trivial
  · exact effect_elementAt (by simp)
  · exact .bind (quiet_plain _) fun _ => .print (by simp)
  · exact .bind (quiet_display _) fun _ => .raise (.inl rfl)

end Builtin

end Egg
