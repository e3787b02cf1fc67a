import Egg.Proofs.ArrayAccess

namespace Egg

open Exec

open Float.Model Float.Model.UnpackedFloat

/-- The point that a number is on the rational line with its two ends. A NaN is none. -/
def Number.point? : Number → Option (WithBot (WithTop ℚ))
  | .int i => some ((i : ℚ) : WithTop ℚ)
  | .float x =>
    match x.toModel.unpack with
    | .zero _ => some ((0 : ℚ) : WithTop ℚ)
    | .finite sign mantissa exponent _ =>
      some ((sign.apply mantissa * 2 ^ exponent : ℚ) : WithTop ℚ)
    | .infinity .positive => some ⊤
    | .infinity .negative => some ⊥
    | .notANumber => none

def Size.point : Size → WithBot (WithTop ℚ)
  | .negInf => ⊥
  | .finite units => ((units / one : ℚ) : WithTop ℚ)
  | .posInf => ⊤

section Points

theorem Number.point?_of_value? {n : Number} {q : ℚ} (h : n.value? = some q) :
    n.point? = some (q : WithTop ℚ) := by
  cases n with
  | int i =>
      cases h
      rfl
  | float x =>
      rw [value?] at h
      rw [point?]
      cases hunpack : x.toModel.unpack with
      | zero | finite =>
          rw [hunpack] at h
          cases h
          rfl
      | infinity | notANumber =>
          rw [hunpack] at h
          cases h

theorem Number.point?_eq (n : Number) : n.point? = n.size?.map Size.point := by
  cases hvalue : n.value? with
  | some q =>
      rw [point?_of_value? hvalue]
      rw [value?_eq, Option.bind_eq_some_iff] at hvalue
      obtain ⟨size, hsize, hq⟩ := hvalue
      cases size with
      | negInf | posInf => cases hq
      | finite units =>
          cases hq
          rw [hsize]
          rfl
  | none =>
      cases n with
      | int i => cases hvalue
      | float x =>
          have htop : (Fields.ofFloat x).exponent = Fields.topExponent := by
            by_contra hfinite
            rw [value?_eq, size?, Fields.value?_of_finite hfinite] at hvalue
            cases hvalue
          rw [point?, Fields.unpack_toModel, Fields.toUnpacked, size?, Fields.size?, if_pos htop,
            if_pos htop]
          by_cases hfraction : (Fields.ofFloat x).fraction = 0
          · rw [if_pos hfraction, if_neg (not_not.mpr hfraction), Fields.sign]
            cases (Fields.ofFloat x).negative <;> rfl
          · rw [if_neg hfraction, if_pos hfraction]
            rfl

theorem Size.point_finite_lt_iff {m n : ℤ} : (finite m).point < (finite n).point ↔ m < n := by
  have hone : (0 : ℚ) < one := by
    rw [cast_one]
    positivity
  rw [point, point, WithBot.coe_lt_coe, WithTop.coe_lt_coe, div_lt_div_iff_of_pos_right hone,
    Int.cast_lt]

theorem Size.lt_iff (x y : Size) : x.lt y = true ↔ x.point < y.point := by
  cases x with
  | negInf =>
      cases y with
      | negInf => exact iff_of_false Bool.false_ne_true (lt_irrefl _)
      | finite n => exact iff_of_true rfl (WithBot.bot_lt_coe _)
      | posInf => exact iff_of_true rfl bot_lt_top
  | finite m =>
      cases y with
      | negInf => exact iff_of_false Bool.false_ne_true not_lt_bot
      | finite n => rw [point_finite_lt_iff, lt, decide_eq_true_iff]
      | posInf => exact iff_of_true rfl (WithBot.coe_lt_coe.mpr (WithTop.coe_lt_top _))
  | posInf => exact iff_of_false (by cases y <;> exact Bool.false_ne_true) not_top_lt

theorem Size.eq_of_not_lt {x y : Size} (h : x.lt y = false) (h' : y.lt x = false) : x = y := by
  cases x <;> cases y <;> simp_all [lt]
  omega

theorem Size.point_inj {x y : Size} : x.point = y.point ↔ x = y := by
  constructor
  · intro h
    refine eq_of_not_lt ?_ ?_
    · rw [Bool.eq_false_iff, Ne, lt_iff, h]
      exact lt_irrefl _
    · rw [Bool.eq_false_iff, Ne, lt_iff, h]
      exact lt_irrefl _
  · rintro rfl
    rfl

end Points

namespace Number

section Comparison

variable {a b : Number} {x y : WithBot (WithTop ℚ)} (ha : a.point? = some x)
  (hb : b.point? = some y)

include ha hb

theorem lt_eq_decide : a.lt b = decide (x < y) := by
  rw [point?_eq, Option.map_eq_some_iff] at ha hb
  obtain ⟨s, hs, rfl⟩ := ha
  obtain ⟨t, ht, rfl⟩ := hb
  simp only [lt, hs, ht]
  rw [Bool.eq_iff_iff, Size.lt_iff, decide_eq_true_iff]

theorem eq_eq_decide : a.eq b = decide (x = y) := by
  rw [point?_eq, Option.map_eq_some_iff] at ha hb
  obtain ⟨s, hs, rfl⟩ := ha
  obtain ⟨t, ht, rfl⟩ := hb
  simp only [eq, hs, ht]
  rw [Bool.eq_iff_iff, decide_eq_true_iff, decide_eq_true_iff, Size.point_inj]

end Comparison

theorem exists_point?_float {x : Float} (h : x.isNaN = false) : ∃ p, (float x).point? = some p := by
  change x.toModel.unpack.isNaN = false at h
  rw [point?]
  cases hunpack : x.toModel.unpack with
  | zero | finite => exact ⟨_, rfl⟩
  | infinity sign => cases sign <;> exact ⟨_, rfl⟩
  | notANumber =>
      rw [hunpack] at h
      cases h

theorem eq_symm (a b : Number) : a.eq b = b.eq a := by
  unfold eq
  cases a.size? with
  | none => cases b.size? <;> rfl
  | some x =>
      cases b.size? with
      | none => rfl
      | some y => simp only [eq_comm]

end Number

namespace Value

/-- The two lines on which values are in order: numbers other than NaNs, and strings. -/
inductive Line where
  | numbers
  | strings

/-- The line on which a value is, if it is on one. -/
def line? : Value → Option Line
  | number (.int _) => some .numbers
  | number (.float x) => if x.isNaN then none else some .numbers
  | string _ => some .strings
  | _ => none

theorem exists_point_of_line? {v : Value} (h : v.line? = some .numbers) :
    ∃ n p, v = number n ∧ n.point? = some p := by
  cases v with
  | number n =>
      cases n with
      | int i => exact ⟨_, _, rfl, rfl⟩
      | float x =>
          rw [line?] at h
          split at h
          · cases h
          · rename_i hnan
            obtain ⟨p, hp⟩ := Number.exists_point?_float (Bool.eq_false_iff.mpr hnan)
            exact ⟨_, p, rfl, hp⟩
  | bool | string | array | closure | builtin => cases h

theorem exists_string_of_line? {v : Value} (h : v.line? = some .strings) : ∃ s, v = string s := by
  cases v with
  | string s => exact ⟨s, rfl⟩
  | number n =>
      cases n with
      | int i => cases h
      | float x =>
          rw [line?] at h
          split at h <;> cases h
  | bool | array | closure | builtin => cases h

/-- The point of a number, and the lower end of the line for what is none. -/
def point : Value → WithBot (WithTop ℚ)
  | number n => n.point?.getD ⊥
  | _ => ⊥

theorem point_number {n : Number} {p : WithBot (WithTop ℚ)} (h : n.point? = some p) :
    (number n).point = p := by
  rw [point, h, Option.getD_some]

/-- The text of a string, and the empty text for what is none. -/
def text : Value → String
  | string s => s
  | _ => ""

theorem equals_symm (v w : Value) : v.equals w = w.equals v := by
  cases v <;> cases w <;> simp only [equals, eq_comm]
  exact Number.eq_symm _ _

def Alike (v w : Value) : Prop :=
  (∃ a b, v = number a ∧ w = number b) ∨ ∃ s t, v = string s ∧ w = string t

end Value

/-- That a builtin answers two operands with a truth value and leaves the machine as it is. -/
def Builtin.Answers (b : Builtin) (m : Machine) (v w : Value) (answer : Bool) : Prop :=
  (b.apply [v, w]).run m = (.ok (.bool answer), m)

theorem Builtin.Answers.eq {b : Builtin} {m : Machine} {v w : Value} {answer answer' : Bool}
    (h : b.Answers m v w answer) (h' : b.Answers m v w answer') : answer = answer' := by
  rw [Answers, h] at h'
  cases h'
  rfl

section Primitives

variable {m : Machine} {v w : Value} {p : Primitive}

theorem raises_comparison_iff (hv : ∃ text, m.heap.display v = .ok text)
    (hw : ∃ text, m.heap.display w = .ok text) :
    Raises .mistyped m (p.comparison v w) ↔ ¬ v.Alike w := by
  obtain ⟨left, hleft⟩ := hv
  obtain ⟨right, hright⟩ := hw
  unfold Primitive.comparison
  split
  · rename_i a b
    refine iff_of_false ?_ (not_not.mpr (.inl ⟨a, b, rfl, rfl⟩))
    rintro ⟨cause, -, hrun⟩
    cases hrun
  · rename_i s t
    refine iff_of_false ?_ (not_not.mpr (.inr ⟨s, t, rfl, rfl⟩))
    rintro ⟨cause, -, hrun⟩
    cases hrun
  · rename_i hnumbers hstrings
    refine iff_of_true ⟨.notOrdered p left right, rfl, ?_⟩ ?_
    · rw [run_bind_ok _ (run_display hleft), run_bind_ok _ (run_display hright)]
      rfl
    · rintro (⟨a, b, rfl, rfl⟩ | ⟨s, t, rfl, rfl⟩)
      · exact hnumbers a b rfl rfl
      · exact hstrings s t rfl rfl

theorem Builtin.apply_comparison {b : Builtin} (hp : p = .less ∨ p = .greater) (h : b.primitive = p)
    (v w : Value) : b.apply [v, w] = p.comparison v w := by
  rcases hp with rfl | rfl <;> simp only [apply, h]

variable {less equal greater : Builtin} (hless : less.primitive = .less)
  (hequal : equal.primitive = .equal) (hgreater : greater.primitive = .greater)

include hless hequal hgreater

theorem answers_numbers {a b : Number} {x y : WithBot (WithTop ℚ)} (ha : a.point? = some x)
    (hb : b.point? = some y) :
    less.Answers m (.number a) (.number b) (decide (x < y)) ∧
    equal.Answers m (.number a) (.number b) (decide (x = y)) ∧
    greater.Answers m (.number a) (.number b) (decide (y < x)) := by
  have hequals : (Value.number a).equals (.number b) = decide (x = y) := Number.eq_eq_decide ha hb
  refine ⟨?_, hequals ▸ equal.run_apply_equal hequal _ _ m, ?_⟩
  · rw [Builtin.Answers, Builtin.apply_comparison (.inl rfl) hless, ← Number.lt_eq_decide ha hb]
    rfl
  · rw [Builtin.Answers, Builtin.apply_comparison (.inr rfl) hgreater, ← Number.lt_eq_decide hb ha]
    rfl

theorem answers_strings (s t : String) :
    less.Answers m (.string s) (.string t) (decide (s < t)) ∧
    equal.Answers m (.string s) (.string t) (decide (s = t)) ∧
    greater.Answers m (.string s) (.string t) (decide (t < s)) := by
  refine ⟨?_, equal.run_apply_equal hequal _ _ m, ?_⟩
  · rw [Builtin.Answers, Builtin.apply_comparison (.inl rfl) hless]
    rfl
  · rw [Builtin.Answers, Builtin.apply_comparison (.inr rfl) hgreater]
    rfl

/-- On either line the values have keys in a linear order, and are answered as their keys compare.
-/
theorem exists_key (m : Machine) (line : Value.Line) :
    ∃ (α : Type) (_ : LinearOrder α) (key : Value → α), ∀ v w, v.line? = some line →
      w.line? = some line →
      less.Answers m v w (decide (key v < key w)) ∧ equal.Answers m v w (decide (key v = key w)) ∧
      greater.Answers m v w (decide (key w < key v)) := by
  cases line with
  | numbers =>
      refine ⟨WithBot (WithTop ℚ), inferInstance, Value.point, fun v w hv hw => ?_⟩
      obtain ⟨a, x, rfl, ha⟩ := Value.exists_point_of_line? hv
      obtain ⟨b, y, rfl, hb⟩ := Value.exists_point_of_line? hw
      rw [Value.point_number ha, Value.point_number hb]
      exact answers_numbers hless hequal hgreater ha hb
  | strings =>
      refine ⟨String, inferInstance, Value.text, fun v w hv hw => ?_⟩
      obtain ⟨s, rfl⟩ := Value.exists_string_of_line? hv
      obtain ⟨t, rfl⟩ := Value.exists_string_of_line? hw
      exact answers_strings hless hequal hgreater s t

theorem exists_answers (m : Machine) {line : Value.Line} {v w : Value} (hv : v.line? = some line)
    (hw : w.line? = some line) :
    ∃ l e g, less.Answers m v w l ∧ equal.Answers m v w e ∧ greater.Answers m v w g ∧
      less.Answers m w v g ∧ [l, e, g].count true = 1 := by
  obtain ⟨α, order, key, hkey⟩ := exists_key hless hequal hgreater m line
  obtain ⟨hl, he, hg⟩ := hkey v w hv hw
  refine ⟨_, _, _, hl, he, hg, (hkey w v hw hv).1, ?_⟩
  rcases lt_trichotomy (key v) (key w) with hlt | heq | hgt
  · simp [hlt, hlt.ne, hlt.not_gt]
  · simp [heq]
  · simp [hgt, hgt.ne', hgt.not_gt]

theorem answers_trans (m : Machine) {line : Value.Line} {u v w : Value} (hu : u.line? = some line)
    (hv : v.line? = some line) (hw : w.line? = some line) :
    (less.Answers m u v true → less.Answers m v w true → less.Answers m u w true) ∧
    (equal.Answers m u v true → equal.Answers m v w true → equal.Answers m u w true) := by
  obtain ⟨α, order, key, hkey⟩ := exists_key hless hequal hgreater m line
  obtain ⟨hless₁, hequal₁, -⟩ := hkey u v hu hv
  obtain ⟨hless₂, hequal₂, -⟩ := hkey v w hv hw
  obtain ⟨hless₃, hequal₃, -⟩ := hkey u w hu hw
  constructor
  · intro h₁ h₂
    have hlt : key u < key w :=
      (of_decide_eq_true (hless₁.eq h₁)).trans (of_decide_eq_true (hless₂.eq h₂))
    rwa [decide_eq_true hlt] at hless₃
  · intro h₁ h₂
    have heq : key u = key w :=
      (of_decide_eq_true (hequal₁.eq h₁)).trans (of_decide_eq_true (hequal₂.eq h₂))
    rwa [decide_eq_true heq] at hequal₃

end Primitives

/-- Comparison orders numbers by their exact values, and strings. Of two numbers other than NaNs,
whether integers of any size, floats or infinities, and of two strings, exactly one is below,
equal to or above the other; to be above is to be below the other way round, and both to be below
and to be equal go on from one to the next. Numbers compare as the points they are on the rational
line. Equality is symmetric on all values, and the order is a type error exactly for operands that
are neither two numbers nor two strings, if both can be shown. -/
theorem comparison_orders {less equal greater : Builtin} (hless : less.primitive = .less)
    (hequal : equal.primitive = .equal) (hgreater : greater.primitive = .greater) (m : Machine) :
    (∀ line v w, v.line? = some line → w.line? = some line →
      ∃ l e g, less.Answers m v w l ∧ equal.Answers m v w e ∧ greater.Answers m v w g ∧
        less.Answers m w v g ∧ [l, e, g].count true = 1) ∧
    (∀ line u v w, u.line? = some line → v.line? = some line → w.line? = some line →
      (less.Answers m u v true → less.Answers m v w true → less.Answers m u w true) ∧
      (equal.Answers m u v true → equal.Answers m v w true → equal.Answers m u w true)) ∧
    (∀ (a b : Number) x y, a.point? = some x → b.point? = some y →
      less.Answers m (.number a) (.number b) (decide (x < y)) ∧
      equal.Answers m (.number a) (.number b) (decide (x = y))) ∧
    (∀ v w, ∃ e, equal.Answers m v w e ∧ equal.Answers m w v e) ∧
    (∀ v w, (∃ text, m.heap.display v = .ok text) → (∃ text, m.heap.display w = .ok text) →
      (Raises .mistyped m (less.apply [v, w]) ↔ ¬ v.Alike w) ∧
      (Raises .mistyped m (greater.apply [v, w]) ↔ ¬ v.Alike w)) := by
  refine ⟨?_, ?_, ?_, ?_, ?_⟩
  · exact fun line v w hv hw => exists_answers hless hequal hgreater m hv hw
  · exact fun line u v w hu hv hw => answers_trans hless hequal hgreater m hu hv hw
  · intro a b x y ha hb
    obtain ⟨hl, he, -⟩ := answers_numbers hless hequal hgreater ha hb
    exact ⟨hl, he⟩
  · intro v w
    refine ⟨v.equals w, equal.run_apply_equal hequal v w m, ?_⟩
    rw [Value.equals_symm]
    exact equal.run_apply_equal hequal w v m
  · intro v w hv hw
    rw [Builtin.apply_comparison (.inl rfl) hless, Builtin.apply_comparison (.inr rfl) hgreater]
    exact ⟨raises_comparison_iff hv hw, raises_comparison_iff hv hw⟩

/-- An integer between two neighbouring floats, which as a float would be equal to the first. -/
theorem comparison_orders_betweenFloats :
    ((Value.number (.float 9007199254740992)).line? = some .numbers ∧
      (Value.number (.int 9007199254740993)).line? = some .numbers ∧
      (Value.number (.float 9007199254740994)).line? = some .numbers) ∧
    (Builtin.mk "<" .less 5).Answers .empty (.number (.float 9007199254740992))
      (.number (.int 9007199254740993)) true ∧
    (Builtin.mk "<" .less 5).Answers .empty (.number (.int 9007199254740993))
      (.number (.float 9007199254740994)) true ∧
    (Builtin.mk "<" .less 5).Answers .empty (.number (.float 9007199254740992))
      (.number (.float 9007199254740994)) true ∧
    ¬ (Value.bool true).Alike (.string "a") ∧
    Raises .mistyped .empty ((Builtin.mk "<" .less 5).apply [.bool true, .string "a"]) := by
  have hless : (Builtin.mk "<" .less 5).primitive = .less := rfl
  have hequal : (Builtin.mk "==" .equal 4).primitive = .equal := rfl
  have hgreater : (Builtin.mk ">" .greater 6).primitive = .greater := rfl
  obtain ⟨-, htrans, hexact, -, hraises⟩ := comparison_orders hless hequal hgreater .empty
  have hlow : (Number.float 9007199254740992).value? = some 9007199254740992 := by decide +kernel
  have hhigh : (Number.float 9007199254740994).value? = some 9007199254740994 := by decide +kernel
  have hfirst := (hexact _ (.int 9007199254740993) _ _ (Number.point?_of_value? hlow) rfl).1
  have hsecond := (hexact (.int 9007199254740993) _ _ _ rfl (Number.point?_of_value? hhigh)).1
  rw [decide_eq_true (by norm_cast)] at hfirst hsecond
  have hboth := (htrans .numbers _ _ _ rfl rfl rfl).1 hfirst hsecond
  have hbool : ∃ text, Heap.empty.display (.bool true) = .ok text := by
    simp [Heap.display, Heap.displayBelow]
  have hstring : ∃ text, Heap.empty.display (.string "a") = .ok text := by
    simp [Heap.display, Heap.displayBelow]
  have halike : ¬ (Value.bool true).Alike (.string "a") := by
    rintro (⟨a, b, h, -⟩ | ⟨s, t, h, -⟩) <;> cases h
  exact ⟨⟨rfl, rfl, rfl⟩, hfirst, hsecond, hboth, halike, (hraises _ _ hbool hstring).1.mpr halike⟩

end Egg
