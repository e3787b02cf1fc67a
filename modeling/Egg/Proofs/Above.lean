import Egg.Proofs.Region

/-!
A machine above a base. The base holds scopes, arrays and closures from earlier on, and all that
the machine has comes after them: the numbers of its scopes, arrays and closures go up by how many
there are in the base. Looking up, binding and showing work above the base as they do without it,
since nothing leads from the machine into the base.
-/

namespace Egg

/-- The scopes and the heap that a machine stands on. -/
structure Base where
  forest : Forest
  heap : Heap

/-- A value with the numbers that it has above a base. -/
def Value.above (b : Base) : Value → Value
  | .bool value => .bool value
  | .number value => .number value
  | .string value => .string value
  | .array id => .array (b.heap.arrays.size + id)
  | .closure id => .closure (b.heap.closures.size + id)
  | .builtin value => .builtin value

def Binding.above (b : Base) (x : Binding) : Binding :=
  { x with value := x.value.above b }

def Scope.above (b : Base) (s : Scope) : Scope :=
  ⟨s.parent.map (b.forest.size + ·), s.bindings.map (·.above b)⟩

/-- A closure above a base. Its body was read from source text and has no numbers in it. -/
def Closure.above (b : Base) (c : Closure) : Closure :=
  { c with scope := b.forest.size + c.scope }

def Forest.above (b : Base) (f : Forest) : Forest :=
  ⟨b.forest.scopes ++ f.scopes.map (·.above b)⟩

def Heap.above (b : Base) (heap : Heap) : Heap :=
  ⟨b.heap.arrays ++ heap.arrays.map (·.map (·.above b)),
    b.heap.closures ++ heap.closures.map (·.above b)⟩

/-- A machine above a base. What the machine has printed is its own. -/
def Machine.above (b : Base) (m : Machine) : Machine :=
  ⟨m.forest.above b, m.heap.above b, m.output⟩

variable (b : Base)

namespace Value

theorem above_of_isPlain {v : Value} (h : v.IsPlain) : v.above b = v := by
  cases v with
  | array id => cases h
  | closure id => cases h
  | bool | number | string | builtin => rfl

@[simp] theorem isTruthy_above (v : Value) : (v.above b).isTruthy = v.isTruthy := by
  cases v <;> rfl

@[simp] theorem isCallable_above (v : Value) : (v.above b).isCallable = v.isCallable := by
  cases v <;> rfl

@[simp] theorem equals_above (v w : Value) : (v.above b).equals (w.above b) = v.equals w := by
  cases v <;> cases w <;> simp [above, equals]

end Value

namespace Scope

theorem get?_above (s : Scope) (x : String) : (s.above b).get? x = (s.get? x).map (·.above b) := by
  simp only [get?, above, List.find?_map, Option.map_map]
  rfl

theorem binds_above (s : Scope) (x : String) : (s.above b).binds x = s.binds x := by
  simp only [binds, above, List.any_map]
  rfl

theorem above_set (s : Scope) (x : String) (v : Value) :
    (s.set x v).above b = (s.above b).set x (v.above b) := by
  simp only [set, above, List.map_map, mk.injEq, true_and]
  refine List.map_congr_left fun y _ => ?_
  by_cases hy : y.name = x <;> simp [Binding.above, hy]

theorem above_put (s : Scope) (x : String) (o : Origin) (v : Value) :
    (s.put x o v).above b = (s.above b).put x o (v.above b) := by
  rw [put, put, binds_above]
  split
  · exact above_set b s x v
  · simp [above, Binding.above]

theorem sorted_above (s : Scope) : (s.above b).sorted = s.sorted.map (·.above b) := by
  rw [sorted, sorted, List.map_mergeSort]
  · rfl
  · exact fun _ _ _ _ => rfl

end Scope

theorem getElem?_append_size_add {α : Type} (xs ys : Array α) (i : Nat) :
    (xs ++ ys)[xs.size + i]? = ys[i]? := by
  rw [Array.getElem?_append_right (Nat.le_add_right _ _), Nat.add_sub_cancel_left]

theorem append_map_modify {α β : Type} (xs : Array β) (ys : Array α) (i : Nat) {f : α → α}
    {g : β → β} {h : α → β} (hfg : ∀ y, h (f y) = g (h y)) :
    xs ++ (ys.modify i f).map h = (xs ++ ys.map h).modify (xs.size + i) g := by
  refine Array.ext_getElem? fun j => ?_
  rw [Array.getElem?_modify]
  by_cases hj : j < xs.size
  · have hne : xs.size + i ≠ j := by omega
    rw [if_neg hne, Array.getElem?_append_left hj, Array.getElem?_append_left hj]
  · obtain ⟨k, rfl⟩ : ∃ k, j = xs.size + k := ⟨j - xs.size, by omega⟩
    rw [getElem?_append_size_add, getElem?_append_size_add]
    by_cases hk : i = k <;> simp [hk, Array.getElem?_modify, Function.comp_def, hfg]

namespace Forest

@[simp] theorem size_above (f : Forest) : (f.above b).size = b.forest.size + f.size := by
  simp [above, size]

theorem get?_above (f : Forest) (i : ScopeId) :
    (f.above b).get? (b.forest.size + i) = (f.get? i).map (·.above b) := by
  rw [get?, above]
  exact (getElem?_append_size_add _ _ i).trans (by simp [get?])

theorem above_push (f : Forest) (s : Scope) :
    (f.push s).above b = (f.above b).push (s.above b) := by
  rw [above, push, Array.map_push, Array.append_push]
  rfl

theorem above_define (f : Forest) (i : ScopeId) (x : String) (o : Origin) (v : Value) :
    (f.define i x o v).above b = (f.above b).define (b.forest.size + i) x o (v.above b) := by
  rw [above, define, append_map_modify (g := (·.put x o (v.above b))) _ _ _ fun s =>
    Scope.above_put b s x o v]
  rfl

theorem above_set (f : Forest) (i : ScopeId) (x : String) (v : Value) :
    (f.set i x v).above b = (f.above b).set (b.forest.size + i) x (v.above b) := by
  rw [above, set, append_map_modify (g := (·.set x (v.above b))) _ _ _ fun s =>
    Scope.above_set b s x v]
  rfl

theorem above_defineAll (f : Forest) (i : ScopeId) (o : Origin) (bindings : List (String × Value)) :
    (f.defineAll i o bindings).above b =
      (f.above b).defineAll (b.forest.size + i) o (bindings.map (Prod.map id (·.above b))) := by
  induction bindings generalizing f with
  | nil => rfl
  | cons x bindings ih => exact (ih _).trans (by rw [above_define]; rfl)

theorem chain_above (f : Forest) (i : ScopeId) :
    (f.above b).chain (b.forest.size + i) = (f.chain i).map (b.forest.size + ·) := by
  -- the chain goes on to an older scope only, and numbers above the base compare as they did
  induction i using Nat.strongRecOn with
  | ind i ih =>
      rw [chain, chain, get?_above]
      cases f.get? i with
      | none => rfl
      | some scope =>
          cases hparent : scope.parent with
          | none => simp [Scope.above, hparent]
          | some p =>
              by_cases hp : p < i
              · simp [Scope.above, hparent, hp, ih p hp]
              · simp [Scope.above, hparent, hp]

theorem lookup?_above (f : Forest) (i : ScopeId) (x : String) :
    (f.above b).lookup? (b.forest.size + i) x = (f.lookup? i x).map (·.above b) := by
  rw [lookup?, lookup?, chain_above, List.findSome?_map]
  induction f.chain i with
  | nil => rfl
  | cons j js ih =>
      rw [List.findSome?_cons, List.findSome?_cons, Function.comp_apply, get?_above]
      cases f.get? j with
      | none => exact ih
      | some scope =>
          simp only [Option.map_some, Option.bind_some, Scope.get?_above]
          cases scope.get? x with
          | none => exact ih
          | some v => rfl

theorem owner?_above (f : Forest) (i : ScopeId) (x : String) :
    (f.above b).owner? (b.forest.size + i) x = (f.owner? i x).map (b.forest.size + ·) := by
  rw [owner?, owner?, chain_above, List.find?_map]
  congr 2
  funext j
  rw [Function.comp_apply, get?_above]
  cases f.get? j with
  | none => rfl
  | some scope => exact Scope.binds_above b scope x

theorem size_pushProgram (f : Forest) (r : Registry) : (f.pushProgram r).size = f.size + 2 := by
  simp [pushProgram, pushTop]

theorem above_pushProgram (f : Forest) :
    (f.pushProgram .standard).above b = (f.above b).pushProgram .standard := by
  have hbindings : Registry.standard.bindings.map (Prod.map id (Value.above b)) =
      Registry.standard.bindings := by
    refine (List.map_congr_left fun x hx => ?_).trans (List.map_id _)
    exact Prod.ext rfl (Value.above_of_isPlain b (Registry.isPlain_of_mem_standard hx))
  rw [pushProgram, pushTop, above_push, above_defineAll, hbindings, above_push, pushProgram,
    pushTop, size_above]
  rfl

end Forest

namespace Heap

@[simp] theorem size_arrays_above (heap : Heap) :
    (heap.above b).arrays.size = b.heap.arrays.size + heap.arrays.size := by
  simp [above]

@[simp] theorem size_closures_above (heap : Heap) :
    (heap.above b).closures.size = b.heap.closures.size + heap.closures.size := by
  simp [above]

theorem above_pushArray (heap : Heap) (items : List Value) :
    { heap with arrays := heap.arrays.push items }.above b =
      { heap.above b with arrays := (heap.above b).arrays.push (items.map (·.above b)) } := by
  rw [above, Array.map_push, Array.append_push]
  rfl

theorem above_pushClosure (heap : Heap) (c : Closure) :
    { heap with closures := heap.closures.push c }.above b =
      { heap.above b with closures := (heap.above b).closures.push (c.above b) } := by
  rw [above, Array.map_push, Array.append_push]
  rfl

theorem getD_arrays_above (heap : Heap) (id : ArrayId) :
    (heap.above b).arrays[b.heap.arrays.size + id]?.getD [] =
      (heap.arrays[id]?.getD []).map (·.above b) := by
  rw [above, getElem?_append_size_add, Array.getElem?_map]
  exact Option.getD_map (List.map (Value.above b)) [] heap.arrays[id]?

theorem getElem?_closures_above (heap : Heap) (id : ClosureId) :
    (heap.above b).closures[b.heap.closures.size + id]? = heap.closures[id]?.map (·.above b) :=
  (getElem?_append_size_add _ _ id).trans (by simp)

theorem displayBelow_above (heap : Heap) (bound : ArrayId) (v : Value) :
    (heap.above b).displayBelow (b.heap.arrays.size + bound) (v.above b) =
      heap.displayBelow bound v := by
  -- the items of an array are shown below its own number, which is below the bound
  induction bound using Nat.strongRecOn generalizing v with
  | ind bound ih =>
      cases v with
      | array id =>
          rw [Value.above, displayBelow, displayBelow]
          by_cases hid : id < bound
          · have hitems : (heap.above b).displayBelow (b.heap.arrays.size + id) ∘ Value.above b =
                heap.displayBelow id := funext fun v => ih id hid v
            rw [if_pos hid, if_pos (Nat.add_lt_add_left hid _), getD_arrays_above, List.mapM_map,
              hitems]
          · simp [hid]
      | closure id =>
          rw [Value.above, displayBelow, displayBelow, getElem?_closures_above, Option.map_map]
          rfl
      | bool | number | string | builtin => rw [Value.above, displayBelow, displayBelow]

theorem display_above (heap : Heap) (v : Value) :
    (heap.above b).display (v.above b) = heap.display v := by
  rw [display, size_arrays_above, displayBelow_above, display]

theorem plain_above (heap : Heap) (v : Value) :
    (heap.above b).plain (v.above b) = heap.plain v := by
  cases v with
  | string text => rfl
  | bool | number | array | closure | builtin => exact display_above b heap _

end Heap

end Egg
