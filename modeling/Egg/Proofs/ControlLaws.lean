import Egg.Proofs.BigStepEvaluation
import Egg.Proofs.TaskStep

/-!
Laws of the control forms. How a task behaves is a relation between the machine before it, its
result and the machine after it. Behaviours compose as executions do, and the rules say of each
control form which composition it is. A loop behaves as its unrolling, and a sequence inside a
sequence as the items of both in one.
-/

namespace Egg

/-- How something can end on a machine: with which result, and on which machine. -/
abbrev Behavior : Type := Machine → Except Stop Value → Machine → Prop

namespace Behavior

variable {b : Behavior} {f : Value → Behavior}

theorem ext {b c : Behavior} (h : ∀ m r m', b m r m' ↔ c m r m') : b = c := by
  funext m r m'
  exact propext (h m r m')

/-- Give a value and leave the machine as it is. -/
def give (v : Value) : Behavior := fun m r m' => r = .ok v ∧ m' = m

/-- Behave in one way, and then in a way that may depend on the value. Where the first part stops,
so does the whole. -/
def andThen (b : Behavior) (f : Value → Behavior) : Behavior := fun m r m' =>
  (∃ stop, r = .error stop ∧ b m (.error stop) m') ∨ ∃ v m₁, b m (.ok v) m₁ ∧ f v m₁ r m'

/-- Behave in a given way, and let an error that has no place take the given one. -/
def locate (p : Option Position) (b : Behavior) : Behavior := fun m r m' =>
  ∃ r', b m r' m' ∧ r = r'.mapError (Stop.locate p)

theorem give_andThen (v : Value) (f : Value → Behavior) : (give v).andThen f = f v := by
  refine ext fun m r m' => ⟨?_, fun h => .inr ⟨v, m, ⟨rfl, rfl⟩, h⟩⟩
  rintro (⟨stop, -, hstop, -⟩ | ⟨w, m₁, ⟨hw, rfl⟩, h⟩)
  · cases hstop
  · cases hw
    exact h

theorem andThen_give (b : Behavior) : b.andThen give = b := by
  refine ext fun m r m' => ⟨?_, fun h => ?_⟩
  · rintro (⟨stop, rfl, h⟩ | ⟨v, m₁, h, rfl, rfl⟩)
    · exact h
    · exact h
  · cases r with
    | error stop => exact .inl ⟨stop, rfl, h⟩
    | ok v => exact .inr ⟨v, m', h, rfl, rfl⟩

theorem andThen_assoc (b : Behavior) (f g : Value → Behavior) :
    (b.andThen f).andThen g = b.andThen fun v => (f v).andThen g := by
  refine ext fun m r m' => ⟨?_, ?_⟩
  · rintro (⟨stop, rfl, ⟨_, ⟨⟩, h⟩ | ⟨v, m₁, hb, hf⟩⟩ | ⟨w, m₂, ⟨_, ⟨⟩, _⟩ | ⟨v, m₁, hb, hf⟩, hg⟩)
    · exact .inl ⟨stop, rfl, h⟩
    · exact .inr ⟨v, m₁, hb, .inl ⟨stop, rfl, hf⟩⟩
    · exact .inr ⟨v, m₁, hb, .inr ⟨w, m₂, hf, hg⟩⟩
  · rintro (⟨stop, rfl, h⟩ | ⟨v, m₁, hb, ⟨stop, rfl, hf⟩ | ⟨w, m₂, hf, hg⟩⟩)
    · exact .inl ⟨stop, rfl, .inl ⟨stop, rfl, h⟩⟩
    · exact .inl ⟨stop, rfl, .inr ⟨v, m₁, hb, hf⟩⟩
    · exact .inr ⟨w, m₂, .inr ⟨v, m₁, hb, hf⟩, hg⟩

/-- That every error has a place. -/
def Placed (b : Behavior) : Prop :=
  ∀ m cause m', ¬ b m (.error (.raised ⟨cause, none⟩)) m'

theorem placed_give (v : Value) : (give v).Placed := by
  rintro m cause m' ⟨h, -⟩
  cases h

theorem Placed.andThen (hb : b.Placed) (hf : ∀ v, (f v).Placed) : (b.andThen f).Placed := by
  rintro m cause m' (⟨_, ⟨⟩, h⟩ | ⟨v, m₁, -, h⟩)
  · exact hb m cause m' h
  · exact hf v m₁ cause m' h

theorem Placed.locate_eq (hb : b.Placed) (p : Option Position) : b.locate p = b := by
  have hsame : ∀ {m r m'}, b m r m' → r.mapError (Stop.locate p) = r := by
    intro m r m' h
    match r, h with
    | .ok v, _ => rfl
    | .error (.rejected _), _ => rfl
    | .error (.fault _), _ => rfl
    | .error (.raised ⟨cause, some q⟩), _ => rfl
    | .error (.raised ⟨cause, none⟩), h => exact absurd h (hb m cause m')
  refine ext fun m r m' => ⟨?_, fun h => ⟨r, h, (hsame h).symm⟩⟩
  rintro ⟨r', h, rfl⟩
  rw [hsame h]
  exact h

end Behavior

/-- How a task ends in a scope by the rules of the language. -/
def Task.behavior (task : Task) (s : ScopeId) : Behavior :=
  Runs false task s

section Rules

variable {s : ScopeId} {test body e : Expr} {es : List Expr}

open Behavior

theorem behavior_expression (e : Expr) (s : ScopeId) :
    (Task.expression e).behavior s = ((Task.node e).behavior s).locate e.position := by
  refine ext fun m r m' => ⟨fun h => ?_, ?_⟩
  · cases h with
    | located h => exact ⟨_, h, rfl⟩
    | stop hbegins => cases hbegins
    | tooDeep h => cases h
  · rintro ⟨r', h, rfl⟩
    exact .located h

theorem placed_expression (h : e.position.isSome) : ((Task.expression e).behavior s).Placed := by
  obtain ⟨p, hp⟩ := Option.isSome_iff_exists.mp h
  rw [behavior_expression, hp]
  rintro m cause m' ⟨r', -, hr⟩
  match r', hr with
  | .error (.raised ⟨_, none⟩), hr => cases hr
  | .error (.raised ⟨_, some _⟩), hr => cases hr

theorem behavior_literal (v : Value) (p : Option Position) (s : ScopeId) :
    (Task.expression (.literal v p)).behavior s = give v := by
  have hnode : (Task.node (.literal v p)).behavior s = give v := by
    refine ext fun m r m' => ⟨fun h => ?_, ?_⟩
    · cases h with
      | stop hbegins => cases hbegins
      | literal => exact ⟨rfl, rfl⟩
    · rintro ⟨rfl, rfl⟩
      exact .literal
  rw [behavior_expression, hnode, (placed_give v).locate_eq]

theorem behavior_conditional (test yes no : Expr) (s : ScopeId) :
    (Task.special (.conditional test yes no)).behavior s =
      ((Task.expression test).behavior s).andThen fun v =>
        (Task.expression (if v = .bool false then no else yes)).behavior s := by
  refine ext fun m r m' => ⟨fun h => ?_, ?_⟩
  · cases h with
    | stop hbegins h => cases hbegins; exact .inl ⟨_, rfl, h⟩
    | conditionalYes h hv h' =>
        refine .inr ⟨_, _, h, ?_⟩
        simp only [if_neg hv]
        exact h'
    | conditionalNo h h' => exact .inr ⟨_, _, h, h'⟩
  · rintro (⟨stop, rfl, h⟩ | ⟨v, m₁, h, h'⟩)
    · exact .stop .conditional h
    · split at h'
      · subst v
        exact .conditionalNo h h'
      · exact .conditionalYes h ‹_› h'

theorem behavior_loop (test body : Expr) (s : ScopeId) :
    (Task.special (.loop test body)).behavior s =
      ((Task.expression test).behavior s).andThen fun v =>
        if v = .bool false then give (.bool false)
        else ((Task.expression body).behavior s).andThen fun _ =>
          (Task.special (.loop test body)).behavior s := by
  refine ext fun m r m' => ⟨fun h => ?_, ?_⟩
  · cases h with
    | stop hbegins h => cases hbegins; exact .inl ⟨_, rfl, h⟩
    | loopEnd h => exact .inr ⟨_, _, h, rfl, rfl⟩
    | loopRound h hv h' =>
        refine .inr ⟨_, _, h, ?_⟩
        simp only [if_neg hv]
        cases h' with
        | stop hbegins h => cases hbegins; exact .inl ⟨_, rfl, h⟩
        | round h h' => exact .inr ⟨_, _, h, h'⟩
    | tooLong h => cases h
  · rintro (⟨stop, rfl, h⟩ | ⟨v, m₁, h, h'⟩)
    · exact .stop .loop h
    · split at h'
      · subst v
        obtain ⟨rfl, rfl⟩ := h'
        exact .loopEnd h
      · rename_i hv
        refine .loopRound h hv ?_
        rcases h' with ⟨stop, rfl, h⟩ | ⟨w, m₂, h, h'⟩
        · exact .stop .round h
        · exact .round h h'

theorem behavior_sequence_nil (v : Value) (s : ScopeId) :
    (Task.sequence v []).behavior s = give v := by
  refine ext fun m r m' => ⟨fun h => ?_, ?_⟩
  · cases h with
    | stop hbegins => cases hbegins
    | sequenceEnd => exact ⟨rfl, rfl⟩
  · rintro ⟨rfl, rfl⟩
    exact .sequenceEnd

theorem behavior_sequence_cons (v : Value) (e : Expr) (es : List Expr) (s : ScopeId) :
    (Task.sequence v (e :: es)).behavior s =
      ((Task.expression e).behavior s).andThen fun w => (Task.sequence w es).behavior s := by
  refine ext fun m r m' => ⟨fun h => ?_, ?_⟩
  · cases h with
    | stop hbegins h => cases hbegins; exact .inl ⟨_, rfl, h⟩
    | sequenceNext h h' => exact .inr ⟨_, _, h, h'⟩
  · rintro (⟨stop, rfl, h⟩ | ⟨w, m₁, h, h'⟩)
    · exact .stop .sequence h
    · exact .sequenceNext h h'

theorem behavior_sequence_append (v : Value) (xs ys : List Expr) (s : ScopeId) :
    (Task.sequence v (xs ++ ys)).behavior s =
      ((Task.sequence v xs).behavior s).andThen fun w => (Task.sequence w ys).behavior s := by
  induction xs generalizing v with
  | nil => rw [behavior_sequence_nil, give_andThen, List.nil_append]
  | cons x xs ih =>
      rw [List.cons_append, behavior_sequence_cons, behavior_sequence_cons, andThen_assoc]
      simp only [ih]

theorem behavior_special_sequence (es : List Expr) (s : ScopeId) :
    (Task.special (.sequence es)).behavior s = (Task.sequence (.bool false) es).behavior s := by
  refine ext fun m r m' => ⟨fun h => ?_, .sequence⟩
  cases h with
  | stop hbegins => cases hbegins
  | sequence h => exact h

theorem Runs.loop_ends {m m' : Machine} {r : Except Stop Value}
    (h : Runs false (.special (.loop test body)) s m r m') :
    r = .ok (.bool false) ∨ ∃ e stop m₁, (e = test ∨ e = body) ∧ r = .error stop ∧
      Runs false (.expression e) s m₁ (.error stop) m' := by
  -- a loop and its rounds take turns, so the induction is on the runs of both
  suffices hends : ∀ {task : Task}, Runs false task s m r m' →
      task = .special (.loop test body) ∨ task = .round test body →
      r = .ok (.bool false) ∨ ∃ e stop m₁, (e = test ∨ e = body) ∧ r = .error stop ∧
        Runs false (.expression e) s m₁ (.error stop) m' from hends h (.inl rfl)
  clear h
  intro task h htask
  induction h using Runs.steps with
  | located => simp at htask
  | stop hbegins h =>
      rcases htask with rfl | rfl
      · cases hbegins
        exact .inr ⟨_, _, _, .inl rfl, rfl, h⟩
      · cases hbegins
        exact .inr ⟨_, _, _, .inr rfl, rfl, h⟩
  | becomes hbecomes => rcases htask with rfl | rfl <;> cases hbecomes
  | proceeds _ hproceeds _ _ _ ih =>
      rcases htask with rfl | rfl
      · cases hproceeds
        exact ih (.inr rfl)
      · cases hproceeds
        exact ih (.inl rfl)
  | finishes _ hfinishes =>
      rcases htask with rfl | rfl
      · cases hfinishes
        exact .inl rfl
      · cases hfinishes
  | enter => simp at htask
  | ends hends =>
      rcases htask with rfl | rfl
      · cases hends with
        | tooLong h => cases h
      · cases hends

theorem placed_loop (htest : test.position.isSome) (hbody : body.position.isSome) :
    ((Task.special (.loop test body)).behavior s).Placed := by
  intro m cause m' h
  rcases Runs.loop_ends h with hr | ⟨e, stop, m₁, he, hr, hstop⟩
  · cases hr
  · cases hr
    rcases he with rfl | rfl
    · exact placed_expression htest _ _ _ hstop
    · exact placed_expression hbody _ _ _ hstop

theorem placed_sequence (h : ∀ e ∈ es, e.position.isSome) (v : Value) :
    ((Task.sequence v es).behavior s).Placed := by
  induction es generalizing v with
  | nil =>
      rw [behavior_sequence_nil]
      exact placed_give v
  | cons e es ih =>
      rw [behavior_sequence_cons]
      exact (placed_expression (h e (by simp))).andThen fun w =>
        ih (fun e' he' => h e' (by simp [he'])) w

end Rules

namespace Form

/-- How an application of a special form is written: where its word comes from, and the places of
the word and of the whole. -/
structure Site where
  origin : Origin
  word : Option Position
  whole : Option Position

def appliedAt (form : Form) (site : Site) (es : List Expr) : Expr :=
  .apply (.name form.word site.origin site.word) es site.whole

end Form

theorem behavior_appliedAt {form : Form} {es : List Expr} {special : Special} {s : ScopeId}
    (hshaped : Shaped form es special) (hplaced : ((Task.special special).behavior s).Placed)
    (site : Form.Site) :
    (Task.expression (form.appliedAt site es)).behavior s = (Task.special special).behavior s := by
  have hnode : (Task.node (form.appliedAt site es)).behavior s =
      (Task.special special).behavior s := by
    refine Behavior.ext fun m r m' => ⟨fun h => ?_, .form hshaped⟩
    -- only the evaluator decides which rule applies to a word, so the run is taken back from it
    obtain ⟨n, hn⟩ := Runs.settles h
    have hrun := hn n n n ⟨Nat.le_refl n, Nat.le_refl n, Nat.le_refl n⟩
    have hform : (Expr.name form.word site.origin site.word).form? = some form :=
      Expr.form?_eq_some_iff.mpr ⟨site.origin, site.word, rfl⟩
    simp only [Task.exec, Form.appliedAt, evalStep, hform, Form.shape_of_shaped hshaped] at hrun
    exact (follows_eval false n n).special hrun (Runs.allowed h)
  rw [behavior_expression, hnode, hplaced.locate_eq]

/-- Evaluation of an expression in a scope ends in a given way, and is not given up at a limit of
the machine. -/
def Evaluates (e : Expr) (s : ScopeId) (m : Machine) (r : Except Stop Value)
    (m' : Machine) : Prop :=
  (∃ rounds depth, (eval rounds depth e s).run m = (r, m')) ∧
    ∀ stop, r = .error stop → stop.isLimit = false

theorem evaluates_iff {e : Expr} {s : ScopeId} {m m' : Machine} {r : Except Stop Value} :
    Evaluates e s m r m' ↔ (Task.expression e).behavior s m r m' := by
  constructor
  · rintro ⟨⟨rounds, depth, hrun⟩, hr⟩
    refine follows_eval false rounds depth e s m m' r hrun fun stop hstop hlimit => ?_
    rw [hr stop hstop] at hlimit
    cases hlimit
  · intro h
    obtain ⟨n, hn⟩ := Runs.settles h
    refine ⟨⟨n, n, hn n n n ⟨Nat.le_refl n, Nat.le_refl n, Nat.le_refl n⟩⟩, fun stop hstop => ?_⟩
    exact Bool.eq_false_iff.mpr fun hlimit => Bool.false_ne_true (Runs.allowed h stop hstop hlimit)

theorem evaluates_congr {e e' : Expr} {s : ScopeId}
    (h : (Task.expression e).behavior s = (Task.expression e').behavior s) {m m' : Machine}
    {r : Except Stop Value} : Evaluates e s m r m' ↔ Evaluates e' s m r m' := by
  rw [evaluates_iff, evaluates_iff, h]

theorem behavior_unrolled {test body : Expr} (htest : test.position.isSome)
    (hbody : body.position.isSome) (s : ScopeId) (loop sequence : Form.Site) (p : Option Position) :
    (Task.special (.conditional test
      (Form.sequence.appliedAt sequence [body, Form.loop.appliedAt loop [test, body]])
      (.literal (.bool false) p))).behavior s = (Task.special (.loop test body)).behavior s := by
  have hloop : (Task.expression (Form.loop.appliedAt loop [test, body])).behavior s =
      (Task.special (.loop test body)).behavior s :=
    behavior_appliedAt .loop (placed_loop htest hbody) loop
  have hround :
      (Task.special (.sequence [body, Form.loop.appliedAt loop [test, body]])).behavior s =
      ((Task.expression body).behavior s).andThen fun _ =>
        (Task.special (.loop test body)).behavior s := by
    simp only [behavior_special_sequence, behavior_sequence_cons, behavior_sequence_nil,
      Behavior.andThen_give, hloop]
  have hyes : (Task.expression (Form.sequence.appliedAt sequence
      [body, Form.loop.appliedAt loop [test, body]])).behavior s =
      ((Task.expression body).behavior s).andThen fun _ =>
        (Task.special (.loop test body)).behavior s := by
    rw [behavior_appliedAt .sequence _ sequence, hround]
    rw [hround]
    exact (placed_expression hbody).andThen fun _ => placed_loop htest hbody
  rw [behavior_conditional, behavior_loop]
  congr
  funext v
  split
  · exact behavior_literal _ _ _
  · exact hyes

/-- A loop equals its unrolling. Evaluating `while(test, body)` ends in some way, with a value or
an error that has its place, exactly if evaluating `if(test, do(body, while(test, body)), false)`
ends in that way, and leaves the same machine behind; and a loop that ends without an error gives
`false`. The two parts have places; the forms around them may have any or none. -/
theorem loop_unrolls {test body : Expr} (htest : test.position.isSome)
    (hbody : body.position.isSome)
    (loop inner sequence conditional : Form.Site) (p : Option Position) (s : ScopeId)
    (m : Machine) (r : Except Stop Value) (m' : Machine) :
    (Evaluates (Form.loop.appliedAt loop [test, body]) s m r m' ↔
      Evaluates (Form.conditional.appliedAt conditional [test,
        Form.sequence.appliedAt sequence [body, Form.loop.appliedAt inner [test, body]],
        .literal (.bool false) p]) s m r m') ∧
    ∀ v, Evaluates (Form.loop.appliedAt loop [test, body]) s m (.ok v) m' → v = .bool false := by
  have hplaced : ((Task.special (.loop test body)).behavior s).Placed := placed_loop htest hbody
  have hunrolled := behavior_unrolled htest hbody s inner sequence p
  constructor
  · refine evaluates_congr ?_
    rw [behavior_appliedAt .loop hplaced, behavior_appliedAt .conditional (by rwa [hunrolled]),
      hunrolled]
  · intro v h
    rw [evaluates_iff, behavior_appliedAt .loop hplaced] at h
    rcases Runs.loop_ends h with hr | ⟨e, stop, m₁, -, hr, -⟩
    · exact Except.ok.inj hr
    · cases hr

/-- A machine whose only scope has a switch and can print. -/
def switchMachine (on : Bool) (output : String) : Machine :=
  ⟨⟨#[⟨none, [⟨"on", .host, .bool on⟩, ⟨"print", .host, .builtin ⟨"print", .print, 0⟩⟩]⟩]⟩, .empty,
    output⟩

/-- An application of a special form, and what stands in it, at the start of a text. -/
def Form.Site.atStart : Form.Site :=
  ⟨.source, some .start, some .start⟩

/-- Print a text and turn the switch off. -/
def switchOff : Expr :=
  Form.sequence.appliedAt .atStart [
    .apply (.name "print" .source none) [.literal (.string "off") none] none,
    Form.assign.appliedAt ⟨.source, none, none⟩
      [.name "on" .source none, .literal (.bool false) none]]

theorem loop_unrolls_switch :
    (Expr.name "on" .source (some .start)).position.isSome ∧ switchOff.position.isSome ∧
      Evaluates (Form.conditional.appliedAt .atStart [.name "on" .source (some .start),
        Form.sequence.appliedAt .atStart [switchOff,
          Form.loop.appliedAt .atStart [.name "on" .source (some .start), switchOff]],
        .literal (.bool false) none]) 0 (switchMachine true "") (.ok (.bool false))
        (switchMachine false "off\n") := by
  refine ⟨rfl, rfl, (loop_unrolls rfl rfl .atStart .atStart _ _ _ _ _ _ _).1.mp ⟨⟨9, 9, ?_⟩, ?_⟩⟩
  · with_unfolding_all rfl
  · rintro stop ⟨⟩

theorem behavior_sequence_start {es : List Expr} (h : es ≠ []) (v w : Value) (s : ScopeId) :
    (Task.sequence v es).behavior s = (Task.sequence w es).behavior s := by
  obtain ⟨e, es, rfl⟩ := List.exists_cons_of_ne_nil h
  rw [behavior_sequence_cons, behavior_sequence_cons]

theorem behavior_nested {ys zs : List Expr} (hplaced : ∀ e ∈ ys, e.position.isSome)
    (hne : ys ≠ [] ∨ zs ≠ []) (inner : Form.Site) (v : Value) (s : ScopeId) :
    (Task.sequence v (Form.sequence.appliedAt inner ys :: zs)).behavior s =
      (Task.sequence v (ys ++ zs)).behavior s := by
  have hinner : (Task.expression (Form.sequence.appliedAt inner ys)).behavior s =
      (Task.sequence (.bool false) ys).behavior s := by
    rw [behavior_appliedAt .sequence _ inner, behavior_special_sequence]
    rw [behavior_special_sequence]
    exact placed_sequence hplaced _
  have happend : ys ++ zs ≠ [] := by
    simpa [imp_iff_not_or] using hne
  calc (Task.sequence v (Form.sequence.appliedAt inner ys :: zs)).behavior s
      = ((Task.sequence (.bool false) ys).behavior s).andThen fun w =>
          (Task.sequence w zs).behavior s := by rw [behavior_sequence_cons, hinner]
    _ = (Task.sequence (.bool false) (ys ++ zs)).behavior s :=
      (behavior_sequence_append _ _ _ _).symm
    _ = (Task.sequence v (ys ++ zs)).behavior s := behavior_sequence_start happend _ _ _

/-- Sequences flatten. Evaluating `do(xs..., do(ys...), zs...)` ends in some way exactly if
evaluating `do(xs..., ys..., zs...)` does: with the same value, or the same error at the same
place, and on the same machine, so that what the inner sequence defines is defined in the scope of
the outer one. -/
theorem sequence_flattens {xs ys zs : List Expr}
    (hplaced : ∀ e ∈ xs ++ (ys ++ zs), e.position.isSome) (hne : ys ≠ [] ∨ zs ≠ [])
    (outer inner flat : Form.Site) (s : ScopeId) (m : Machine) (r : Except Stop Value)
    (m' : Machine) :
    Evaluates (Form.sequence.appliedAt outer (xs ++ Form.sequence.appliedAt inner ys :: zs))
        s m r m' ↔
      Evaluates (Form.sequence.appliedAt flat (xs ++ (ys ++ zs))) s m r m' := by
  have hsame :
      (Task.special (.sequence (xs ++ Form.sequence.appliedAt inner ys :: zs))).behavior s =
      (Task.special (.sequence (xs ++ (ys ++ zs)))).behavior s := by
    have hys : ∀ e ∈ ys, e.position.isSome := fun e he => hplaced e (by simp [he])
    simp only [behavior_special_sequence, behavior_sequence_append _ xs, behavior_nested hys hne]
  have hflat : ((Task.special (.sequence (xs ++ (ys ++ zs)))).behavior s).Placed := by
    rw [behavior_special_sequence]
    exact placed_sequence hplaced _
  refine evaluates_congr ?_
  rw [behavior_appliedAt .sequence hflat, behavior_appliedAt .sequence (by rwa [hsame]), hsame]

/-- Remember how the switch stands. -/
def keepSwitch : Expr :=
  Form.define.appliedAt .atStart [.name "was" .source none, .name "on" .source none]

theorem sequence_flattens_define :
    (∀ e ∈ [switchOff] ++ ([keepSwitch] ++ [.name "was" .source (some .start)]),
      e.position.isSome) ∧
      [keepSwitch] ≠ [] ∧
      Evaluates (Form.sequence.appliedAt .atStart [switchOff,
        Form.sequence.appliedAt .atStart [keepSwitch], .name "was" .source (some .start)]) 0
        (switchMachine true "") (.ok (.bool false))
        ((switchMachine false "off\n").define 0 "was" .source (.bool false)) := by
  have hplaced : ∀ e ∈ [switchOff] ++ ([keepSwitch] ++ [.name "was" .source (some .start)]),
      e.position.isSome := by
    simp [switchOff, keepSwitch, Form.appliedAt, Form.Site.atStart, Expr.position]
  have hne : [keepSwitch] ≠ [] := List.cons_ne_nil _ _
  refine ⟨hplaced, hne, (sequence_flattens hplaced (.inl hne) _ _ .atStart _ _ _ _).mpr
    ⟨⟨9, 9, ?_⟩, ?_⟩⟩
  · with_unfolding_all rfl
  · rintro stop ⟨⟩

end Egg
