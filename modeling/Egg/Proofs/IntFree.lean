import Egg.Proofs.FreshRun

namespace Egg

open Exec

/-- A value that is no exact integer, and not the builtin that makes them. -/
def Value.IntFree : Value → Prop
  | .number (.int _) => False
  | .builtin b => b.primitive ≠ .length
  | _ => True

theorem Number.text_float (x : Float) : ∃ t, Number.text (.float x) = .ok t := by
  cases h : toInt? (.float x) with
  | some i => exact ⟨_, by simp only [text, toFloat, bind, Except.bind, h]; rfl⟩
  | none => exact ⟨_, by simp only [text, toFloat, bind, Except.bind, h]; rfl⟩

theorem Heap.display_ok {heap : Heap} (hheap : heap.HasItems Value.IntFree) {v : Value}
    (hv : v.IntFree) : ∃ t, heap.display v = .ok t := by
  cases h : heap.display v with
  | ok t => exact ⟨t, rfl⟩
  | error fault =>
      obtain ⟨n, hn, hsource⟩ := exists_number_of_displayBelow_error h
      have hfree : (Value.number n).IntFree := by
        rcases hsource with rfl | ⟨id, items, hitems, hmem⟩
        · exact hv
        · exact hheap id items hitems _ hmem
      cases n with
      | int i => cases hfree
      | float x =>
          obtain ⟨t, ht⟩ := Number.text_float x
          rw [displayNumber, ht] at hn
          cases hn

/-- An execution that gives a value on a machine and leaves it as it is. -/
def Exec.Calm {α : Type} (m : Machine) (x : Exec α) : Prop :=
  ∃ a, x.run m = (.ok a, m)

/-- A value without exact integers, or an end that is not due to a number too large. -/
def Exec.Modest (m : Machine) (x : Exec Value) : Prop :=
  ∀ r m', x.run m = (r, m') →
    (∀ v, r = .ok v → v.IntFree) ∧ ∀ kind, r ≠ .error (.fault (.overflow kind))

namespace Exec.Modest

variable {m : Machine}

theorem bind {α : Type} {x : Exec α} {f : α → Exec Value} (hx : Calm m x)
    (hf : ∀ a, Modest m (f a)) : Modest m (x >>= f) := by
  obtain ⟨a, ha⟩ := hx
  intro r m' hrun
  rw [run_bind_ok f ha] at hrun
  exact hf a r m' hrun

theorem pure {v : Value} (hv : v.IntFree) : Modest m (Pure.pure v) := by
  rintro r m' ⟨⟩
  refine ⟨?_, fun _ => by simp⟩
  rintro w ⟨⟩
  exact hv

theorem raise (cause : Cause) : Modest m (Exec.raise cause) := by
  rintro r m' ⟨⟩
  refine ⟨?_, fun _ => by simp⟩
  rintro w ⟨⟩

end Exec.Modest

section Builtin

variable {m : Machine} (hm : m.heap.HasItems Value.IntFree) {x y : Value} (hx : x.IntFree)
  (hy : y.IntFree)

include hm hx

theorem calm_display : Calm m (display x) := by
  obtain ⟨t, ht⟩ := Heap.display_ok hm hx
  exact ⟨t, run_display ht⟩

theorem calm_plain : Calm m (plain x) := by
  cases x with
  | string t => exact ⟨t, rfl⟩
  | bool | number | array | closure | builtin => exact calm_display hm hx

theorem modest_items (p : Primitive) {f : List Value → Exec Value}
    (hf : ∀ values, (∀ v ∈ values, v.IntFree) → Modest m (f values)) :
    Modest m (p.items x >>= f) := by
  unfold Primitive.items
  split
  · rename_i id
    refine hf (m.heap.arrays[id]?.getD []) fun v hv => ?_
    cases hitems : m.heap.arrays[id]? with
    | none => simp [hitems] at hv
    | some items =>
        rw [hitems] at hv
        exact hm id items hitems v hv
  · simp only [bind_assoc]
    exact .bind (calm_display hm hx) fun _ => .raise _

theorem modest_printLine : Modest m (Primitive.printLine x) := by
  refine .bind (calm_plain hm hx) fun _ => ?_
  rintro r m' ⟨⟩
  refine ⟨?_, fun _ => by simp⟩
  rintro w ⟨⟩
  exact hx

include hy

theorem modest_arithmetic (p : Primitive) {operation : Number → Number → Except Overflow Number}
    (hoperation : ∀ a b, ∃ c, operation (.float a) (.float b) = .ok (.float c)) :
    Modest m (p.arithmetic operation x y) := by
  unfold Primitive.arithmetic Primitive.numbers
  split
  · rename_i a b
    cases a with
    | int => cases hx
    | float a =>
        cases b with
        | int => cases hy
        | float b =>
            obtain ⟨c, hc⟩ := hoperation a b
            rw [pure_bind]
            simp only [hc]
            exact .pure trivial
  · simp only [bind_assoc]
    exact .bind (calm_display hm hx) fun _ => .bind (calm_display hm hy) fun _ => .raise _

theorem modest_addition : Modest m (Primitive.addition x y) := by
  unfold Primitive.addition
  split
  · exact .bind (calm_plain hm hx) fun _ => .bind (calm_plain hm hy) fun _ => .pure trivial
  · exact .bind (calm_plain hm hx) fun _ => .bind (calm_plain hm hy) fun _ => .pure trivial
  · exact modest_arithmetic hm hx hy _ fun _ _ => ⟨_, rfl⟩

theorem modest_comparison (p : Primitive) : Modest m (p.comparison x y) := by
  unfold Primitive.comparison
  split
  · exact .pure trivial
  · exact .pure trivial
  · exact .bind (calm_display hm hx) fun _ => .bind (calm_display hm hy) fun _ => .raise _

theorem modest_elementAt : Modest m (Primitive.elementAt x y) := by
  unfold Primitive.elementAt
  refine modest_items hm hx .element fun values hvalues => ?_
  split
  · rename_i n
    cases n with
    | int => cases hy
    | float a =>
        refine .bind ⟨a, rfl⟩ fun _ => ?_
        split
        · split
          · rename_i v hv
            split_ifs at hv
            exact .pure (hvalues v (List.mem_of_getElem? hv))
          · exact .raise _
        · exact .bind (calm_display hm hy) fun _ => .raise _
  · exact .bind (calm_display hm hy) fun _ => .raise _

end Builtin

theorem Builtin.modest_apply {m : Machine} (hm : m.heap.HasItems Value.IntFree) {b : Builtin}
    (hb : (Value.builtin b).IntFree) {arguments : List Value}
    (harguments : ∀ v ∈ arguments, v.IntFree) :
    Modest m (b.apply arguments) := by
  -- one case for each primitive, in the order of the definition, and a last one for a wrong arity
  unfold Builtin.apply
  split
  · exact modest_addition hm (harguments _ (by simp)) (harguments _ (by simp))
  · exact modest_arithmetic hm (harguments _ (by simp)) (harguments _ (by simp)) _
      fun _ _ => ⟨_, rfl⟩
  · exact modest_arithmetic hm (harguments _ (by simp)) (harguments _ (by simp)) _
      fun _ _ => ⟨_, rfl⟩
  · exact modest_arithmetic hm (harguments _ (by simp)) (harguments _ (by simp)) _
      fun _ _ => ⟨_, rfl⟩
  · exact .pure trivial
  · exact modest_comparison hm (harguments _ (by simp)) (harguments _ (by simp)) _
  · exact modest_comparison hm (harguments _ (by simp)) (harguments _ (by simp)) _
  · rintro r m' ⟨⟩
    refine ⟨?_, fun _ => by simp⟩
    rintro w ⟨⟩
    trivial
  · rename_i hlength
    exact absurd hlength hb
  · exact modest_elementAt hm (harguments _ (by simp)) (harguments _ (by simp))
  · exact modest_printLine hm (harguments _ (by simp))
  · exact .bind (calm_display hm hb) fun _ => .raise _

theorem Token.intFree_of_leaf? {t : Token} {v : Value} {p : Option Position}
    (h : t.leaf? = some (.literal v p)) : v.IntFree := by
  rw [leaf?] at h
  split at h
  · cases h
    trivial
  · cases h
    trivial
  · cases h
  · cases h

/-- The discipline of a program that never mentions the length of an array. The outermost scope
binds that builtin all the same. -/
def Discipline.intFree {limit : Nat} {source : String} {e : Expr}
    (hparse : Expr.parse limit source = .ok e)
    (hname : ∀ x o p, e.Contains (.name x o p) → x ≠ Primitive.length.word) : Discipline where
  program := e
  value := Value.IntFree
  excepted x v := x = Primitive.length.word ∧ ∃ b, v = .builtin b
  overflows := False
  literal v p hv := by
    obtain ⟨t, -, hleaf, -⟩ := Expr.starts_of_parse hparse hv
    exact Token.intFree_of_leaf? hleaf
  name x o p hx _ h := hname x o p hx h.1
  foreign := Expr.not_contains_foreign hparse
  bool _ := trivial
  array _ := trivial
  closure _ := trivial
  builtin _ _ m _ _ hb harguments hitems hrun := Builtin.modest_apply hitems hb harguments _ _ hrun

theorem Discipline.obeys_fresh_intFree {limit : Nat} {source : String} {e : Expr}
    (hparse : Expr.parse limit source = .ok e)
    (hname : ∀ x o p, e.Contains (.name x o p) → x ≠ Primitive.length.word) (output : String) :
    (Machine.fresh output).Obeys (.intFree hparse hname) := by
  refine .fresh output fun b hb => ?_
  rcases List.mem_append.mp hb with hb | hb
  · simp only [Registry.standard, List.mem_cons, List.not_mem_nil, or_false] at hb
    rcases hb with rfl | rfl
    · exact .inl trivial
    · exact .inl trivial
  · obtain ⟨b, hmem, rfl⟩ := List.mem_map.mp hb
    have hword : ∀ b ∈ Registry.standard.builtins, b.name = b.primitive.word := by decide
    by_cases hlength : b.primitive = .length
    · exact .inr ⟨(hword b hmem).trans (by rw [hlength]), b, rfl⟩
    · exact .inl hlength

end Egg
