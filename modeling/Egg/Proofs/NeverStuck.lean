import Egg.Proofs.IntFree
import Egg.Proofs.UncheckedPrimitive

namespace Egg

/-- The values that a machine holds: those that are bound to a name, the items of arrays, and the
literals in the bodies of closures. -/
inductive Machine.Holds (m : Machine) : Value → Prop where
  | bound {i : ScopeId} {scope : Scope} {b : Binding} :
      m.forest.get? i = some scope → b ∈ scope.bindings → Holds m b.value
  | item {id : ArrayId} {items : List Value} {v : Value} :
      m.heap.arrays[id]? = some items → v ∈ items → Holds m v
  | literal {id : ClosureId} {c : Closure} {v : Value} {p : Option Position} :
      m.heap.closures[id]? = some c → c.body.Contains (.literal v p) → Holds m v

/-- The values that there are at a moment: on the machine, in hand, and in what is still to be
evaluated. -/
inductive Moment.Holds (a : Moment) : Value → Prop where
  | machine {v : Value} : a.machine.Holds v → Holds a v
  | inHand {v : Value} : v ∈ a.task.values → Holds a v
  | literal {e : Expr} {v : Value} {p : Option Position} :
      e ∈ a.task.parts → e.Contains (.literal v p) → Holds a v

def Value.IsInt (v : Value) : Prop :=
  ∃ i, v = .number (.int i)

theorem Value.IntFree.not_isInt {v : Value} (h : v.IntFree) : ¬ v.IsInt := by
  rintro ⟨i, rfl⟩
  exact h

section Held

variable {limit : Nat} {source : String} {e : Expr} {hparse : Expr.parse limit source = .ok e}
  {hname : ∀ x o p, e.Contains (.name x o p) → x ≠ Primitive.length.word} {v : Value}

theorem Machine.Obeys.not_isInt {m : Machine} (hm : m.Obeys (.intFree hparse hname))
    (hv : m.Holds v) : ¬ v.IsInt := by
  cases hv with
  | bound hscope hb =>
      -- the builtin for the length is bound as ever, but is not an integer itself
      rcases hm.bindings _ _ hscope _ hb with hfree | ⟨-, b, hbuiltin⟩
      · exact hfree.not_isInt
      · rintro ⟨i, hi⟩
        rw [hbuiltin] at hi
        cases hi
  | item hitems hmem => exact (hm.items _ _ hitems _ hmem).not_isInt
  | literal hc hbody =>
      exact (Discipline.literal _ _ _ ((hm.bodies _ _ hc).trans hbody)).not_isInt

theorem Moment.Obeys.not_isInt {a : Moment} (ha : a.Obeys (.intFree hparse hname))
    (hv : a.Holds v) : ¬ v.IsInt := by
  cases hv with
  | machine hv => exact ha.machine.not_isInt hv
  | inHand hv => exact (ha.task.values v hv).not_isInt
  | literal he hv => exact (Discipline.literal _ _ _ ((ha.task.parts _ he).trans hv)).not_isInt

theorem Runs.not_isInt {limited : Bool} {task : Task} {s : ScopeId} {m m' : Machine}
    {r : Except Stop Value} (h : Runs limited task s m r m') (hm : m.Obeys (.intFree hparse hname))
    (htask : task.Obeys (.intFree hparse hname)) (hv : m'.Holds v ∨ r = .ok v) : ¬ v.IsInt := by
  obtain ⟨hm', hr⟩ := h.obeys hm htask
  rcases hv with hv | rfl
  · exact hm'.not_isInt hv
  · exact hr.of_ok.not_isInt

end Held

theorem Program.stop_cases {limits : Limits} {source : String} {e : Expr} {m m' : Machine}
    {stop : Stop}
    {d : Discipline} (hprogram : d.program = e) (hfresh : (Machine.fresh m.output).Obeys d)
    (hparse : Expr.parse limits.nesting source = .ok e)
    (hrun : (runAlone limits source).run m = (.error stop, m')) :
    (stop = .raised ⟨.tooDeep, none⟩ ∨ stop = .fault .tooLong) ∨
      (∃ error, stop = .raised error ∧ error.cause.kind ≠ .runtime) ∨
      ∃ kind, stop = .fault (.overflow kind) ∧ d.overflows := by
  subst hprogram
  obtain ⟨stop', m'', hruns, rfl⟩ := runs_of_runAlone hparse hrun
  cases (hruns.obeys hfresh (.program d)).2 with
  | raised hkind => exact .inr (.inl ⟨_, rfl, hkind⟩)
  | overflow h => exact .inr (.inr ⟨_, rfl, h⟩)
  | limit hlimit =>
      rcases stop' with rejection | error | fault
      · cases hlimit
      · cases hlimit
      · cases fault with
        | tooDeep => exact .inl (.inl rfl)
        | tooLong => exact .inl (.inr rfl)
        | _ => cases hlimit

/-- Programs that were read never get stuck. In a fresh environment they can stop only with an
error of the language that is not a general one, or because a number is too large, unless they run
too deep or too long; and the builtins neither take more or fewer arguments apart than there are,
nor pick an item that is not there, nor divide by zero. If a program never mentions the length of
an array, there is no exact integer at any moment of its run, nor in what any part of the run
gives and leaves behind, and no number is too large. -/
theorem programs_never_stuck {limits : Limits} {source : String} {e : Expr}
    (hparse : Expr.parse limits.nesting source = .ok e) :
    (∀ m stop m', (Program.runAlone limits source).run m = (.error stop, m') →
      (stop = .raised ⟨.tooDeep, none⟩ ∨ stop = .fault .tooLong) ∨
      (∃ error, stop = .raised error ∧ (error.cause.kind = .malformed ∨
        error.cause.kind = .reference ∨ error.cause.kind = .mistyped ∨ error.cause.kind = .index)) ∨
      ∃ kind, stop = .fault (.overflow kind)) ∧
    (∀ (b : Builtin) (arguments : List Value), (b.carryOut arguments).Follows (b.apply arguments)) ∧
    ((∀ x o p, e.Contains (.name x o p) → x ≠ "length") →
      (∀ m kind m',
        (Program.runAlone limits source).run m ≠ (.error (.fault (.overflow kind)), m')) ∧
      (∀ output r m', (Program.runAlone limits source).run ⟨.empty, .empty, output⟩ = (r, m') →
        ∀ v, m'.Holds v ∨ r = .ok v → ¬ v.IsInt) ∧
      ∀ output a, Moment.Later ⟨.expression e, 1, .fresh output⟩ a → (∀ v, a.Holds v → ¬ v.IsInt) ∧
        ∀ limited r m', Runs limited a.task a.scope a.machine r m' →
          ∀ v, m'.Holds v ∨ r = .ok v → ¬ v.IsInt) := by
  refine ⟨fun m stop m' hrun => ?_, Builtin.follows_carryOut, fun hname => ⟨?_, ?_, ?_⟩⟩
  · let d := Discipline.ofProgram e (Expr.not_contains_foreign hparse)
    have hfresh : (Machine.fresh m.output).Obeys d := .fresh _ fun _ _ => .inl trivial
    refine (Program.stop_cases rfl hfresh hparse hrun).imp_right (Or.imp ?_ ?_)
    · rintro ⟨error, hstop, hkind⟩
      refine ⟨error, hstop, ?_⟩
      cases h : error.cause.kind with
      | runtime => exact absurd h hkind
      | malformed | reference | mistyped | index => simp
    · rintro ⟨kind, hstop, -⟩
      exact ⟨kind, hstop⟩
  · intro m kind m' hrun
    have hfresh := Discipline.obeys_fresh_intFree hparse hname m.output
    rcases Program.stop_cases rfl hfresh hparse hrun with (h | h) | ⟨_, h, -⟩ | ⟨_, -, h⟩
    · cases h
    · cases h
    · cases h
    · exact h
  · intro output r m' hrun v hv
    have hfresh := Discipline.obeys_fresh_intFree hparse hname output
    obtain ⟨r, hruns, rfl⟩ := Program.runs_of_runAlone_empty hparse hrun
    refine hruns.not_isInt hfresh (.program _) (hv.imp_right fun hr => ?_)
    cases r with
    | ok w => exact hr
    | error stop => cases hr
  · intro output a hlater
    have ha := Moment.Later.obeys hlater
      ⟨Discipline.obeys_fresh_intFree hparse hname output, .program _⟩
    exact ⟨fun v hv => ha.not_isInt hv, fun limited r m' hruns v hv =>
      hruns.not_isInt ha.machine ha.task hv⟩

/-- A function that picks an item behind the end of an array, of which it is itself an item. -/
def pastEnd : String :=
  "do(define(last, fun(xs, element(xs, 2))), last(array(1, last)))"

theorem programs_never_stuck_pastEnd :
    ∃ e, Expr.parse 9 pastEnd = .ok e ∧ (∀ x o p, e.Contains (.name x o p) → x ≠ "length") ∧
      (∃ error m', (Program.runAlone ⟨9, 30, 9⟩ pastEnd).run .empty = (.error (.raised error), m') ∧
        error.cause.kind = .index ∧ ∀ v, m'.Holds v → ¬ v.IsInt) ∧
      ∀ m kind m',
        (Program.runAlone ⟨9, 30, 9⟩ pastEnd).run m ≠ (.error (.fault (.overflow kind)), m') := by
  have hparse : (Expr.parse 9 pastEnd).toBool = true := by decide +kernel
  have hresult : ((Program.runAlone ⟨9, 30, 9⟩ pastEnd).run .empty).1 =
      .error (.raised ⟨.outOfRange 2 2, some ⟨1, 25, 24⟩⟩) := by decide +kernel
  have hwords : ∀ t ∈ Token.scan pastEnd, t.text ≠ "length" := by decide +kernel
  rcases hrun : (Program.runAlone ⟨9, 30, 9⟩ pastEnd).run .empty with ⟨r, m'⟩
  cases he : Expr.parse 9 pastEnd with
  | error stop =>
      rw [he] at hparse
      cases hparse
  | ok e =>
      rw [hrun] at hresult
      subst hresult
      have hname : ∀ x o p, e.Contains (.name x o p) → x ≠ "length" := by
        intro x o p hx
        obtain ⟨t, ht, hleaf, -⟩ := Expr.starts_of_parse he hx
        exact (Token.word_of_leaf? hleaf rfl).2 ▸ hwords t ht
      obtain ⟨-, -, hfree⟩ := @programs_never_stuck ⟨9, 30, 9⟩ _ e he
      obtain ⟨hoverflow, hheld, -⟩ := hfree hname
      exact ⟨e, rfl, hname, ⟨_, m', rfl, rfl, fun v hv => hheld "" _ m' hrun v (.inl hv)⟩,
        hoverflow⟩

end Egg
