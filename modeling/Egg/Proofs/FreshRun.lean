import Egg.Proofs.Discipline
import Egg.Proofs.Mirroring

namespace Egg

/-- The machine with the scope of a program and the outermost one around it, and nothing else. -/
def Machine.fresh (output : String) : Machine :=
  ⟨Forest.empty.pushProgram .standard, .empty, output⟩

theorem Machine.Obeys.fresh {d : Discipline} (output : String)
    (h : ∀ b ∈ Registry.standard.bindings, d.value b.2 ∨ d.excepted b.1 b.2) :
    (Machine.fresh output).Obeys d := by
  have hempty : Forest.empty.HasBindings fun x v => d.value v ∨ d.excepted x v :=
    fun _ _ hscope => by cases hscope
  refine ⟨(((hempty.push none).defineAll _ .host h).push _), ?_, ?_⟩
  · intro _ _ hitems
    cases hitems
  · intro _ _ hc
    cases hc

namespace Program

def runAlone (limits : Limits) (source : String) : Exec Value := do
  run limits (← Exec.newProgramScope .standard) source

theorem run_runAlone (limits : Limits) (source : String) (m : Machine) :
    (runAlone limits source).run m = (run limits (m.forest.size + 1) source).run
      { m with forest := m.forest.pushProgram .standard } := by
  have hscope : (Exec.newProgramScope .standard).run m =
      (.ok ((m.forest.pushProgram .standard).size - 1),
        { m with forest := m.forest.pushProgram .standard }) := rfl
  rw [Forest.size_pushProgram] at hscope
  rw [runAlone, Exec.run_bind, hscope]
  rfl

theorem mirrors_runAlone (b : Base) (limits : Limits) (source : String) :
    Exec.Mirrors b (Value.above b) (runAlone limits source) (runAlone limits source) := by
  have hscope : Exec.Mirrors b (b.forest.size + ·) (Exec.newProgramScope .standard)
      (Exec.newProgramScope .standard) := by
    refine .modifyGet (fun m => ?_) fun _ hm => hm
    simp only [Machine.above, Forest.above_pushProgram, Forest.size_pushProgram, Forest.size_above]
    rfl
  exact hscope.bind fun s => mirrors_run limits s source

theorem runs_of_runAlone_empty {limits : Limits} {source output : String} {e : Expr} {m' : Machine}
    {r : Except Stop Value} (hparse : Expr.parse limits.nesting source = .ok e)
    (hrun : (runAlone limits source).run ⟨.empty, .empty, output⟩ = (r, m')) :
    ∃ r', Runs true (.expression e) 1 (.fresh output) r' m' ∧ r = r'.mapError reportDepth := by
  rw [run_runAlone, run_eq, hparse] at hrun
  cases hrun
  exact ⟨_, runs_eval limits.rounds limits.depth e 1 (.fresh output), rfl⟩

theorem runs_of_runAlone {limits : Limits} {source : String} {e : Expr} {m m' : Machine}
    {stop : Stop} (hparse : Expr.parse limits.nesting source = .ok e)
    (hrun : (runAlone limits source).run m = (.error stop, m')) :
    ∃ stop' m'', Runs true (.expression e) 1 (.fresh m.output) (.error stop') m'' ∧
      stop = reportDepth stop' := by
  have habove : m = (Machine.mk .empty .empty m.output).above ⟨m.forest, m.heap⟩ := by
    simp [Machine.above, Forest.above, Heap.above, Forest.empty, Heap.empty]
  have hplain : Heap.empty.HasPlainBodies := fun c hc => absurd hc (Array.not_mem_empty c)
  -- the run does on top of what there is what it does on an empty machine
  rw [habove] at hrun
  obtain ⟨m₀, -, ⟨v, -, hok⟩ | ⟨stop₀, halone, hstop⟩⟩ :=
    (mirrors_runAlone ⟨m.forest, m.heap⟩ limits source).run_cases (m := ⟨.empty, .empty, m.output⟩)
      hplain
  · rw [hok] at hrun
    cases hrun
  · rw [hstop] at hrun
    cases hrun
    obtain ⟨r, hruns, hr⟩ := runs_of_runAlone_empty hparse halone
    cases r with
    | ok v => cases hr
    | error stop' => exact ⟨stop', m₀, hruns, Except.error.inj hr⟩

end Program

end Egg
