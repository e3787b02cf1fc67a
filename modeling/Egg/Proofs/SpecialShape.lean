import Egg.Form.Shape
import Mathlib.Data.List.Basic

namespace Egg

/-- The text of an expression that is a bare word. -/
def Expr.word? : Expr → Option String
  | .name x _ _ => some x
  | _ => none

/-- How many arguments a special form takes, unless it takes various numbers of them. -/
def Form.count? : Form → Option Nat
  | .conditional => some 3
  | .loop | .define | .assign => some 2
  | .sequence | .function => none

/-- The error that stands for the wrong shape of an application of a special form: a wrong number
of arguments, something else than a word where a name has to stand, or a function without a body.
-/
inductive Misshapen : Form → List Expr → Error → Prop where
  | count {form : Form} {n : Nat} {es : List Expr} :
      form.count? = some n → es.length ≠ n →
      Misshapen form es ⟨.argumentCount form n es.length, none⟩
  | target {form : Form} {e value : Expr} :
      form = .define ∨ form = .assign → e.word? = none →
      Misshapen form [e, value] ⟨.notWord form, e.position⟩
  | noBody : Misshapen .function [] ⟨.noBody, none⟩
  | parameter {front rest : List Expr} {e body : Expr} :
      (∀ x ∈ front, x.word? ≠ none) → e.word? = none →
      Misshapen .function (front ++ e :: rest ++ [body]) ⟨.notWord .function, e.position⟩

/-- The well-shaped applications of special forms. -/
inductive Shaped : Form → List Expr → Special → Prop where
  | conditional {test yes no : Expr} :
      Shaped .conditional [test, yes, no] (.conditional test yes no)
  | loop {test body : Expr} : Shaped .loop [test, body] (.loop test body)
  | sequence {es : List Expr} : Shaped .sequence es (.sequence es)
  | define {x : String} {o : Origin} {p : Option Position} {value : Expr} :
      Shaped .define [.name x o p, value] (.define x o value)
  | assign {x : String} {o : Origin} {p : Option Position} {value : Expr} :
      Shaped .assign [.name x o p, value] (.assign x value)
  | function {parameters : List Expr} {names : List String} {body : Expr} :
      parameters.map Expr.word? = names.map some →
      Shaped .function (parameters ++ [body]) (.function names body)

namespace Form

theorem wordAt_cases (form : Form) (e : Expr) :
    (∃ x o p, e = .name x o p ∧ form.wordAt e = .ok (x, o)) ∨
      e.word? = none ∧ form.wordAt e = .error ⟨.notWord form, e.position⟩ := by
  cases e with
  | name x o p => exact .inl ⟨x, o, p, rfl, rfl⟩
  | literal v p => exact .inr ⟨rfl, rfl⟩
  | apply f es p => exact .inr ⟨rfl, rfl⟩
  | foreign thing => exact .inr ⟨rfl, rfl⟩

theorem mapM_wordAt_cases (form : Form) (es : List Expr) :
    (∃ words, es.mapM form.wordAt = .ok words ∧ es.map Expr.word? = words.map (some ·.1)) ∨
      ∃ front e rest, es = front ++ e :: rest ∧ (∀ x ∈ front, x.word? ≠ none) ∧ e.word? = none ∧
        es.mapM form.wordAt = .error ⟨.notWord form, e.position⟩ := by
  induction es with
  | nil => exact .inl ⟨[], rfl, rfl⟩
  | cons e es ih =>
      rw [List.mapM_cons]
      rcases form.wordAt_cases e with ⟨x, o, p, rfl, hword⟩ | ⟨hnone, hword⟩
      · rw [hword]
        rcases ih with ⟨words, hok, hmap⟩ | ⟨front, e', rest, rfl, hfront, hnone, herror⟩
        · rw [hok]
          exact .inl ⟨(x, o) :: words, rfl, by simp [Expr.word?, hmap]⟩
        · rw [herror]
          refine .inr ⟨.name x o p :: front, e', rest, rfl, ?_, hnone, rfl⟩
          intro y hy
          rcases List.mem_cons.mp hy with rfl | hy
          · simp [Expr.word?]
          · exact hfront y hy
      · rw [hword]
        exact .inr ⟨[], e, es, rfl, by simp, hnone, rfl⟩

theorem mapM_wordAt_error {form : Form} {front rest : List Expr} {e : Expr}
    (hfront : ∀ x ∈ front, x.word? ≠ none) (he : e.word? = none) :
    (front ++ e :: rest).mapM form.wordAt = .error ⟨.notWord form, e.position⟩ := by
  induction front with
  | nil =>
      rcases form.wordAt_cases e with ⟨x, o, p, rfl, -⟩ | ⟨-, hword⟩
      · cases he
      · rw [List.nil_append, List.mapM_cons, hword]
        rfl
  | cons x front ih =>
      rcases form.wordAt_cases x with ⟨y, o, p, -, hword⟩ | ⟨hnone, -⟩
      · rw [List.cons_append, List.mapM_cons, hword, ih fun z hz => hfront z (by simp [hz])]
        rfl
      · exact absurd hnone (hfront x (by simp))

theorem shape_function_append (es : List Expr) (body : Expr) :
    function.shape (es ++ [body]) = match es.mapM function.wordAt with
      | .error error => .error error
      | .ok words => .ok (.function (words.map (·.1)) body) := by
  have hlast : (es ++ [body]).getLast? = some body := by simp
  have hfront : (es ++ [body]).dropLast = es := by simp
  simp only [shape, hlast, hfront]
  cases es.mapM function.wordAt <;> rfl

theorem shape_of_shaped {form : Form} {es : List Expr} {special : Special}
    (h : Shaped form es special) : form.shape es = .ok special := by
  cases h with
  | conditional => rfl
  | loop => rfl
  | sequence => rfl
  | define => rfl
  | assign => rfl
  | @function parameters names body hnames =>
      rcases function.mapM_wordAt_cases parameters with
        ⟨words, hok, hwords⟩ | ⟨front, e, rest, rfl, -, hnone, -⟩
      · have hmap : words.map (·.1) = names := by
          apply List.map_injective_iff.mpr fun _ _ => Option.some.inj
          rw [← hnames, hwords, List.map_map]
          rfl
        rw [shape_function_append, hok, ← hmap]
      · have hmem : none ∈ names.map some := by
          rw [← hnames]
          simp [hnone]
        simp at hmem

theorem shape_of_count_ne {form : Form} {n : Nat} {es : List Expr} (hcount : form.count? = some n)
    (hlength : es.length ≠ n) :
    form.shape es = .error ⟨.argumentCount form n es.length, none⟩ := by
  cases form with
  | conditional =>
      cases hcount
      rcases es with _ | ⟨a, _ | ⟨b, _ | ⟨c, _ | ⟨d, es⟩⟩⟩⟩
      · rfl
      · rfl
      · rfl
      · exact absurd rfl hlength
      · rfl
  | loop =>
      cases hcount
      rcases es with _ | ⟨a, _ | ⟨b, _ | ⟨c, es⟩⟩⟩
      · rfl
      · rfl
      · exact absurd rfl hlength
      · rfl
  | define =>
      cases hcount
      rcases es with _ | ⟨a, _ | ⟨b, _ | ⟨c, es⟩⟩⟩
      · rfl
      · rfl
      · exact absurd rfl hlength
      · rfl
  | assign =>
      cases hcount
      rcases es with _ | ⟨a, _ | ⟨b, _ | ⟨c, es⟩⟩⟩
      · rfl
      · rfl
      · exact absurd rfl hlength
      · rfl
  | sequence => cases hcount
  | function => cases hcount

theorem shape_of_misshapen {form : Form} {es : List Expr} {error : Error}
    (h : Misshapen form es error) : form.shape es = .error error := by
  cases h with
  | count hcount hlength => exact shape_of_count_ne hcount hlength
  | @target form e value hform hnone =>
      rcases form.wordAt_cases e with ⟨x, o, p, rfl, -⟩ | ⟨-, hword⟩
      · cases hnone
      · rcases hform with rfl | rfl
        · rw [shape, hword]
          rfl
        · rw [shape, hword]
          rfl
  | noBody => rfl
  | parameter hfront hnone =>
      rw [shape_function_append, mapM_wordAt_error hfront hnone]

theorem shaped_or_misshapen (form : Form) (es : List Expr) :
    (∃ special, Shaped form es special) ∨ ∃ error, Misshapen form es error := by
  by_cases hcount : ∃ n, form.count? = some n ∧ es.length ≠ n
  · obtain ⟨n, hcount, hlength⟩ := hcount
    exact .inr ⟨_, .count hcount hlength⟩
  · cases form with
    | conditional =>
        obtain ⟨a, b, c, rfl⟩ := List.length_eq_three.mp (by simpa [count?] using hcount)
        exact .inl ⟨_, .conditional⟩
    | loop =>
        obtain ⟨a, b, rfl⟩ := List.length_eq_two.mp (by simpa [count?] using hcount)
        exact .inl ⟨_, .loop⟩
    | sequence => exact .inl ⟨_, .sequence⟩
    | define =>
        obtain ⟨a, b, rfl⟩ := List.length_eq_two.mp (by simpa [count?] using hcount)
        rcases define.wordAt_cases a with ⟨x, o, p, rfl, -⟩ | ⟨hnone, -⟩
        · exact .inl ⟨_, .define⟩
        · exact .inr ⟨_, .target (.inl rfl) hnone⟩
    | assign =>
        obtain ⟨a, b, rfl⟩ := List.length_eq_two.mp (by simpa [count?] using hcount)
        rcases assign.wordAt_cases a with ⟨x, o, p, rfl, -⟩ | ⟨hnone, -⟩
        · exact .inl ⟨_, .assign⟩
        · exact .inr ⟨_, .target (.inr rfl) hnone⟩
    | function =>
        rcases List.eq_nil_or_concat' es with rfl | ⟨parameters, body, rfl⟩
        · exact .inr ⟨_, .noBody⟩
        · rcases function.mapM_wordAt_cases parameters with
            ⟨words, -, hwords⟩ | ⟨front, e, rest, rfl, hfront, hnone, -⟩
          · refine .inl ⟨.function (words.map (·.1)) body, .function ?_⟩
            rw [hwords, List.map_map]
            rfl
          · exact .inr ⟨_, .parameter hfront hnone⟩

theorem shape_eq_ok_iff {form : Form} {es : List Expr} {special : Special} :
    form.shape es = .ok special ↔ Shaped form es special := by
  constructor
  · intro h
    rcases form.shaped_or_misshapen es with ⟨special', hshaped⟩ | ⟨error, hmisshapen⟩
    · rw [shape_of_shaped hshaped] at h
      cases h
      exact hshaped
    · rw [shape_of_misshapen hmisshapen] at h
      cases h
  · exact shape_of_shaped

theorem shape_eq_error_iff {form : Form} {es : List Expr} {error : Error} :
    form.shape es = .error error ↔ Misshapen form es error := by
  constructor
  · intro h
    rcases form.shaped_or_misshapen es with ⟨special, hshaped⟩ | ⟨error', hmisshapen⟩
    · rw [shape_of_shaped hshaped] at h
      cases h
    · rw [shape_of_misshapen hmisshapen] at h
      cases h
      exact hmisshapen
  · exact shape_of_misshapen

theorem ofWord?_word (form : Form) : ofWord? form.word = some form := by
  cases form <;> rfl

theorem ofWord?_eq_some_iff {x : String} {form : Form} :
    ofWord? x = some form ↔ x = form.word := by
  constructor
  · intro h
    have hword := List.find?_some h
    exact (of_decide_eq_true hword).symm
  · rintro rfl
    exact form.ofWord?_word

end Form

theorem Expr.form?_eq_some_iff {f : Expr} {form : Form} :
    f.form? = some form ↔ ∃ o p, f = .name form.word o p := by
  cases f with
  | name x o p => simp [Expr.form?, Form.ofWord?_eq_some_iff]
  | literal v p => simp [Expr.form?]
  | apply f es p => simp [Expr.form?]
  | foreign thing => simp [Expr.form?]

theorem Expr.form?_eq_none_iff {f : Expr} :
    f.form? = none ↔ ∀ form : Form, f.word? ≠ some form.word := by
  cases f with
  | name x o p =>
      simp [Expr.form?, Expr.word?, Option.eq_none_iff_forall_ne_some, Form.ofWord?_eq_some_iff]
  | literal v p => simp [Expr.form?, Expr.word?]
  | apply f es p => simp [Expr.form?, Expr.word?]
  | foreign thing => simp [Expr.form?, Expr.word?]

end Egg
