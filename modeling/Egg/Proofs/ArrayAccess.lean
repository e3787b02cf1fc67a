import Egg.Proofs.FloatRange
import Egg.Proofs.IntFree

namespace Egg

open Exec

namespace Exec

/-- An execution that raises an error of a kind and leaves the machine as it is. -/
def Raises (kind : Error.Kind) (m : Machine) (x : Exec Value) : Prop :=
  ∃ cause : Cause, cause.kind = kind ∧ x.run m = (.error (.raised ⟨cause, none⟩), m)

end Exec

section Access

variable {m : Machine} {id : ArrayId} {values : List Value}
  (harray : m.heap.arrays[id]? = some values)

include harray

theorem run_items (p : Primitive) : (p.items (.array id)).run m = (.ok values, m) := by
  change (Except.ok (m.heap.arrays[id]?.getD []), m) = _
  rw [harray]
  rfl

theorem run_elementAt_of_toInt? {n : Number} (hfits : n.FitsFloat) {i : ℤ}
    (hn : n.toInt? = some i) :
    (Primitive.elementAt (.array id) (.number n)).run m =
      (match if i < 0 then none else values[i.toNat]? with
        | some v => .ok v
        | none => .error (.raised ⟨.outOfRange i values.length, none⟩), m) := by
  obtain ⟨x, hx⟩ := Number.toFloat_of_fitsFloat hfits
  have hwhole : (Number.float x).toInt?.isSome = true := by
    rw [Number.isSome_toInt?_of_toFloat hx, hn]
    rfl
  have hfloat : (ofOverflow n.toFloat).run m = (.ok x, m) := by
    rw [hx]
    rfl
  rw [Primitive.elementAt, run_bind_ok _ (run_items harray _)]
  dsimp only
  rw [run_bind_ok _ hfloat, if_pos hwhole, hn]
  dsimp only
  cases (if i < 0 then none else values[i.toNat]?) with
  | some v => rfl
  | none => rfl

theorem raises_elementAt_of_toInt? {n : Number} (hn : n.toInt? = none) :
    Raises .mistyped m (Primitive.elementAt (.array id) (.number n)) := by
  cases n with
  | int i => cases hn
  | float x =>
      obtain ⟨text, htext⟩ := Number.text_float x
      have hdisplay : m.heap.display (.number (.float x)) = .ok text := by
        rw [Heap.display, Heap.displayBelow, Heap.displayNumber, htext]
        rfl
      refine ⟨.notIndex text, rfl, ?_⟩
      rw [Primitive.elementAt, run_bind_ok _ (run_items harray _)]
      simp only [hn, ite_self]
      change (display (.number (.float x)) >>= fun text => raise (.notIndex text)).run m = _
      rw [run_bind_ok _ (run_display hdisplay)]
      rfl

theorem run_elementAt_of_not_fitsFloat {n : Number} (hn : ¬ n.FitsFloat) :
    (Primitive.elementAt (.array id) (.number n)).run m =
      (.error (.fault (.overflow .integer)), m) := by
  rw [Primitive.elementAt, run_bind_ok _ (run_items harray _)]
  simp only [Number.toFloat_of_not_fitsFloat hn]
  rfl

theorem run_elementAt_of_lt {n : Number} (hfits : n.FitsFloat) {i : ℕ} (hi : i < values.length)
    (hn : n.value? = some (i : ℚ)) :
    (Primitive.elementAt (.array id) (.number n)).run m = (.ok values[i], m) := by
  have hint : n.toInt? = some (i : ℤ) := Number.toInt?_eq_some_iff.mpr (by exact_mod_cast hn)
  rw [run_elementAt_of_toInt? harray hfits hint, if_neg (by omega), Int.toNat_natCast,
    List.getElem?_eq_getElem hi]

theorem raises_elementAt_of_outside {n : Number} (hfits : n.FitsFloat) {i : ℤ}
    (hn : n.value? = some (i : ℚ)) (hi : i < 0 ∨ values.length ≤ i) :
    Raises .index m (Primitive.elementAt (.array id) (.number n)) := by
  have hnone : (if i < 0 then none else values[i.toNat]?) = none := by
    split_ifs with hnegative
    · rfl
    · rw [List.getElem?_eq_none_iff]
      omega
  refine ⟨.outOfRange i values.length, rfl, ?_⟩
  rw [run_elementAt_of_toInt? harray hfits (Number.toInt?_eq_some_iff.mpr hn), hnone]

theorem run_elementAt_float {x : Float} {i : ℤ} (hx : (Number.float x).value? = some (i : ℚ)) :
    (Primitive.elementAt (.array id) (.number (.float x))).run m =
      (Primitive.elementAt (.array id) (.number (.int i))).run m := by
  have hfloat : (Number.float x).FitsFloat := trivial
  rw [run_elementAt_of_toInt? harray hfloat (Number.toInt?_eq_some_iff.mpr hx),
    run_elementAt_of_toInt? harray (Number.fitsFloat_of_value?_float hx) rfl]

end Access

theorem Builtin.apply_element {element : Builtin} (h : element.primitive = .element) (x y : Value) :
    element.apply [x, y] = Primitive.elementAt x y := by
  simp only [apply, h]

/-- Access to an array goes by the exact value of the index. The length of an array is the number
of its items. With a number whose value is a natural number below the length there is the item at
this place; any other integer is out of range, and what is no integer is no index. An integer and
a float that are equal give the same. This holds for all numbers except the integers that are too
large for a float, with which every access ends in a fault. -/
theorem access_by_exact_value {m : Machine} {id : ArrayId} {values : List Value}
    (harray : m.heap.arrays[id]? = some values) {length element : Builtin}
    (hlength : length.primitive = .length) (helement : element.primitive = .element) :
    (length.apply [.array id]).run m = (.ok (.number (.int values.length)), m) ∧
    (∀ k : Number, k.FitsFloat →
      (∀ (i : ℕ) (hi : i < values.length), k.value? = some (i : ℚ) →
        (element.apply [.array id, .number k]).run m = (.ok values[i], m)) ∧
      (∀ i : ℤ, k.value? = some (i : ℚ) → i < 0 ∨ values.length ≤ i →
        Raises .index m (element.apply [.array id, .number k])) ∧
      ((∀ i : ℤ, k.value? ≠ some (i : ℚ)) →
        Raises .mistyped m (element.apply [.array id, .number k]))) ∧
    (∀ k : Number, ¬ k.FitsFloat →
      (element.apply [.array id, .number k]).run m = (.error (.fault (.overflow .integer)), m)) ∧
    (∀ (i : ℤ) (x : Float), (Number.float x).value? = some (i : ℚ) →
      (element.apply [.array id, .number (.float x)]).run m =
        (element.apply [.array id, .number (.int i)]).run m) := by
  simp only [Builtin.apply_element helement]
  refine ⟨?_, fun k hfits => ⟨?_, ?_, fun hk => ?_⟩, ?_, ?_⟩
  · simp only [Builtin.apply, hlength]
    rw [run_bind_ok _ (run_items harray _)]
    rfl
  · exact fun i hi hk => run_elementAt_of_lt harray hfits hi hk
  · exact fun i hk hi => raises_elementAt_of_outside harray hfits hk hi
  · have hnone : k.toInt? = none :=
      Option.eq_none_iff_forall_ne_some.mpr fun i hi => hk i (Number.toInt?_eq_some_iff.mp hi)
    exact raises_elementAt_of_toInt? harray hnone
  · exact fun k hk => run_elementAt_of_not_fitsFloat harray hk
  · exact fun i x hx => run_elementAt_float harray hx

/-- A machine with one array, on which there are two items. -/
def twoItems : Machine :=
  { Machine.empty with heap := { Heap.empty with arrays := #[[.bool true, .string "b"]] } }

theorem arrays_twoItems : twoItems.heap.arrays[0]? = some [.bool true, .string "b"] := rfl

def itemOfTwo (k : Number) : Exec Value :=
  Builtin.apply ⟨"element", .element, 0⟩ [.array 0, .number k]

theorem access_by_exact_value_two :
    twoItems.heap.arrays[0]? = some [.bool true, .string "b"] ∧
    ((Number.float (-0.0)).value? = some ((0 : ℕ) : ℚ) ∧
      (itemOfTwo (.float (-0.0))).run twoItems = (.ok (.bool true), twoItems)) ∧
    ((Number.float 2).value? = some ((2 : ℤ) : ℚ) ∧ Raises .index twoItems (itemOfTwo (.float 2)) ∧
      (itemOfTwo (.float 2)).run twoItems = (itemOfTwo (.int 2)).run twoItems) ∧
    ((∀ i : ℤ, (Number.float 0.5).value? ≠ some (i : ℚ)) ∧
      Raises .mistyped twoItems (itemOfTwo (.float 0.5))) ∧
    (¬ (Number.int Rounding.limit).FitsFloat ∧
      (itemOfTwo (.int Rounding.limit)).run twoItems =
        (.error (.fault (.overflow .integer)), twoItems)) := by
  have hzero : (Number.float (-0.0)).value? = some ((0 : ℕ) : ℚ) := by decide +kernel
  have htwo : (Number.float 2).value? = some ((2 : ℤ) : ℚ) := by decide +kernel
  have hhalf : ∀ i : ℤ, (Number.float 0.5).value? ≠ some (i : ℚ) := by
    intro i hi
    have hnone : (Number.float 0.5).toInt? = none := by decide +kernel
    rw [Number.toInt?_eq_some_iff.mpr hi] at hnone
    cases hnone
  have hlength : (Builtin.mk "length" .length 0).primitive = .length := rfl
  have helement : (Builtin.mk "element" .element 0).primitive = .element := rfl
  obtain ⟨-, hfits, hfaults, hsame⟩ := access_by_exact_value arrays_twoItems hlength helement
  refine ⟨arrays_twoItems, ⟨hzero, ?_⟩, ⟨htwo, ?_, hsame 2 2 htwo⟩, ⟨hhalf, ?_⟩,
    Number.not_fitsFloat_limit, hfaults _ Number.not_fitsFloat_limit⟩
  · exact (hfits (.float (-0.0)) trivial).1 0 (by decide) hzero
  · exact (hfits (.float 2) trivial).2.1 2 htwo (.inr le_rfl)
  · exact (hfits (.float 0.5) trivial).2.2 hhalf

/-- An integer that is too large for a float is out of range, but this is not what is reported. -/
theorem access_faults_beyond_floats :
    (Number.int Rounding.limit).value? = some ((Rounding.limit : ℤ) : ℚ) ∧ 2 ≤ Rounding.limit ∧
    (itemOfTwo (.int Rounding.limit)).run twoItems =
      (.error (.fault (.overflow .integer)), twoItems) ∧
    ¬ Raises .index twoItems (itemOfTwo (.int Rounding.limit)) := by
  have hfaults : ∀ k : Number, ¬ k.FitsFloat →
      (itemOfTwo k).run twoItems = (.error (.fault (.overflow .integer)), twoItems) :=
    fun k hk => run_elementAt_of_not_fitsFloat arrays_twoItems hk
  have hrun := hfaults _ Number.not_fitsFloat_limit
  refine ⟨rfl, ?_, hrun, ?_⟩
  · obtain ⟨k, -, hlimit⟩ := Rounding.exists_limit_eq
    have hpos := Nat.two_pow_pos k
    rw [hlimit]
    omega
  · rintro ⟨cause, -, hraised⟩
    rw [hrun] at hraised
    cases hraised

end Egg
