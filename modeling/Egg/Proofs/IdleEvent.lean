import Egg.Proofs.SessionReset

namespace Egg

/-- The events at which a session evaluates nothing. A text is judged as the session reads it,
without the characters that do not show. -/
inductive Event.Idle (limits : Limits) : Event → Prop where
  | interrupt : Idle limits .interrupt
  | enter (buffer : String) : Idle limits (.enter buffer)
  | blank {text : String} (hblank : (Session.normalize text).toList.all Text.isBlank = true) :
      Idle limits (.text text)
  | rejected {text : String} {r : Rejection}
      (hline : Command.ofLine? (Session.normalize text) = none)
      (hparse : Expr.parse limits.nesting (Session.normalize text) = .error (.rejected r)) :
      Idle limits (.text text)
  | clear {text : String} (hline : Command.ofLine? (Session.normalize text) = some .clear) :
      Idle limits (.text text)
  | unknown {text word : String}
      (hline : Command.ofLine? (Session.normalize text) = some (.unknown word)) :
      Idle limits (.text text)

namespace Session

variable {limits : Limits} {s : Session}

theorem submit_of_blank {text : String} (h : (normalize text).toList.all Text.isBlank = true) :
    s.submit limits text = .done s (.reply .silent) := by
  simp only [submit, h, if_true]

theorem submit_of_command {text : String} {command : Command}
    (h : Command.ofLine? (normalize text) = some command) :
    s.submit limits text = .done (s.obey command).1 (.reply (s.obey command).2) := by
  simp only [submit, Command.all_isBlank_of_ofLine? h, h]
  rfl

theorem submit_of_program {text : String}
    (hblank : ¬ (normalize text).toList.all Text.isBlank = true)
    (hline : Command.ofLine? (normalize text) = none) :
    s.submit limits text = s.runProgram limits (normalize text) := by
  simp only [submit, if_neg hblank, hline]

theorem runProgram_of_rejected {source : String} {r : Rejection}
    (h : Expr.parse limits.nesting source = .error (.rejected r)) :
    s.runProgram limits source =
      .done s (.reply ⟨"", Report.error s.tracing (.rejected r), false⟩) := by
  have hrun : (showValue limits s.scope source).run s.machine =
      (.error (.rejected r), s.machine) := by
    rw [showValue, Exec.run_bind, Program.run_eq, h]
  rw [runProgram, hrun]
  rfl

theorem feed_of_idle {event : Event} (h : event.Idle limits) :
    ∃ step, s.feed limits event = .done s step := by
  cases h with
  | interrupt => exact ⟨_, rfl⟩
  | enter buffer => exact ⟨_, rfl⟩
  | blank hblank =>
      rw [feed, submit_of_blank hblank]
      exact ⟨_, rfl⟩
  | clear hline | unknown hline =>
      rw [feed, submit_of_command hline]
      exact ⟨_, rfl⟩
  | @rejected text r hline hparse =>
      by_cases hblank : (normalize text).toList.all Text.isBlank = true
      · rw [feed, submit_of_blank hblank]
        exact ⟨_, rfl⟩
      · rw [feed, submit_of_program hblank hline, runProgram_of_rejected hparse]
        exact ⟨_, rfl⟩

/-- A transcript without the answer to one of the events. -/
def Transcript.without (t : Transcript) (i : Nat) : Transcript :=
  { t with steps := t.steps.eraseIdx i }

/-- Events that evaluate nothing leave no trace: the transcript without such an event is that with
it but for the answer to it. All other answers, what was written last, the fault that ended the
session if one did, and the whole session at the end are the same. -/
theorem converse_without_idle (limits : Limits) (s : Session) (front back : List Event)
    {event : Event} (h : event.Idle limits) :
    s.converse limits (front ++ back) =
      (s.converse limits (front ++ event :: back)).without front.length := by
  induction front generalizing s with
  | nil =>
      obtain ⟨step, hstep⟩ := feed_of_idle (s := s) h
      simp only [List.nil_append, converse, hstep]
      rfl
  | cons first front ih =>
      simp only [List.cons_append, converse]
      rcases s.feed limits first with ⟨s', step⟩ | ⟨s', reply, fault⟩
      · simp only [ih s']
        rfl
      · rfl

theorem converse_without_idle_extraParenthesis :
    Event.Idle ⟨9, 9, 9⟩ (.text "set(x, print(2)))") ∧
      (start false).converse ⟨9, 9, 9⟩ ([.text "define(x, 1)"] ++ [.text "print(x)", .interrupt]) =
        ((start false).converse ⟨9, 9, 9⟩ ([.text "define(x, 1)"] ++
          .text "set(x, print(2)))" :: [.text "print(x)", .interrupt])).without 1 := by
  have hreject : (match Expr.parse 9 (normalize "set(x, print(2)))") with
      | .error (.rejected _) => true
      | _ => false) = true := by decide +kernel
  split at hreject
  · rename_i r hparse
    have hidle : Event.Idle ⟨9, 9, 9⟩ (.text "set(x, print(2)))") :=
      .rejected (by decide +kernel) hparse
    exact ⟨hidle, converse_without_idle _ _ [.text "define(x, 1)"] _ hidle⟩
  · cases hreject

end Session

end Egg
