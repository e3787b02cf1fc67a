import Egg.Proofs.Mirroring
import Egg.Session.Basic

namespace Egg

namespace Session

def above (b : Base) (s : Session) : Session :=
  { s with forest := s.forest.above b, heap := s.heap.above b, scope := b.forest.size + s.scope }

variable (b : Base)

theorem listing_above (s : Session) : (s.above b).listing = s.listing := by
  rw [listing, listing, above]
  simp only [Forest.get?_above]
  cases s.forest.get? s.scope with
  | none => rfl
  | some scope =>
      simp only [Option.map_some, Option.getD_some, Scope.sorted_above, List.map_map]
      refine List.map_congr_left fun x _ => ?_
      exact congrArg (x.name, ·) (Heap.display_above b s.heap x.value)

theorem heap_renew (s : Session) : s.renew.heap = s.heap := by
  simp only [renew]

theorem renew_above (s : Session) : (s.above b).renew = s.renew.above b := by
  simp only [renew, above, Forest.above_pushProgram, Forest.size_pushProgram, Forest.size_above]
  rfl

/-- A renewed session is a new one above what there was before. -/
theorem renew_eq_above (s : Session) : s.renew = (start s.tracing).above ⟨s.forest, s.heap⟩ := by
  rw [start, ← renew_above]
  simp [above, renew, Forest.above, Forest.empty, Heap.above, Heap.empty]

end Session

namespace Turn

def session : Turn → Session
  | done s _ => s
  | broken s _ _ => s

def above (b : Base) : Turn → Turn
  | done s step => done (s.above b) step
  | broken s reply fault => broken (s.above b) reply fault

end Turn

namespace Session

def Transcript.above (b : Base) (t : Transcript) : Transcript :=
  { t with final := t.final.above b }

open Exec

variable (b : Base) (limits : Limits)

theorem mirrors_showValue (scope : ScopeId) (source : String) :
    Mirrors b id (showValue limits scope source)
      (showValue limits (b.forest.size + scope) source) :=
  (Program.mirrors_run limits scope source).bind fun v => .display v

variable {s : Session}

theorem obey_above (command : Command) :
    (s.above b).obey command = ((s.obey command).1.above b, (s.obey command).2) ∧
      (s.obey command).1.heap = s.heap := by
  cases command with
  | clear => exact ⟨rfl, rfl⟩
  | unknown word => exact ⟨rfl, rfl⟩
  | reset =>
      rw [obey, obey, renew_above]
      exact ⟨rfl, heap_renew s⟩
  | traceback argument =>
      simp only [obey, above]
      cases switch? s.tracing argument with
      | none => exact ⟨rfl, rfl⟩
      | some tracing => exact ⟨rfl, rfl⟩

theorem runProgram_above (hs : s.heap.HasPlainBodies) (source : String) :
    (s.above b).runProgram limits source = (s.runProgram limits source).above b ∧
      (s.runProgram limits source).session.heap.HasPlainBodies := by
  have hshow := mirrors_showValue b limits s.scope source
  obtain ⟨m, hplain, ⟨shown, hrun, hrun'⟩ | ⟨stop, hrun, hrun'⟩⟩ :=
    hshow.run_cases (m := s.machine) hs
  · change (showValue limits (s.above b).scope source).run (s.above b).machine = _ at hrun'
    rw [runProgram, runProgram, hrun, hrun']
    exact ⟨rfl, hplain⟩
  · change (showValue limits (s.above b).scope source).run (s.above b).machine = _ at hrun'
    rw [runProgram, runProgram, hrun, hrun']
    cases stop with
    | raised | rejected | fault => exact ⟨rfl, hplain⟩

theorem feed_above (hs : s.heap.HasPlainBodies) (event : Event) :
    (s.above b).feed limits event = (s.feed limits event).above b ∧
      (s.feed limits event).session.heap.HasPlainBodies := by
  cases event with
  | interrupt => exact ⟨rfl, hs⟩
  | enter buffer => exact ⟨rfl, hs⟩
  | text text =>
      simp only [feed, submit]
      split
      · exact ⟨rfl, hs⟩
      · split
        · rename_i command _
          obtain ⟨hobey, hheap⟩ := obey_above b (s := s) command
          rw [hobey]
          refine ⟨rfl, ?_⟩
          rw [← hheap] at hs
          exact hs
        · exact runProgram_above b limits hs _

theorem converse_above (hs : s.heap.HasPlainBodies) (events : List Event) :
    (s.above b).converse limits events = (s.converse limits events).above b := by
  -- the base stays the same over all events, also over a further reset
  induction events generalizing s with
  | nil => rfl
  | cons event events ih =>
      obtain ⟨hfeed, hplain⟩ := feed_above b limits hs event
      rw [converse, converse, hfeed]
      cases hturn : s.feed limits event with
      | broken s' reply fault => rfl
      | done s' step =>
          rw [hturn] at hplain
          have hrest := ih (s := s') hplain
          simp only [Turn.above, hrest, Transcript.above]

end Session

theorem Command.all_isBlank_of_ofLine? {line : String} {command : Command}
    (h : ofLine? line = some command) : line.toList.all Text.isBlank = false := by
  cases hblank : line.toList.all Text.isBlank with
  | false => rfl
  | true =>
      have htrim : Text.trimLeft line.toList = [] :=
        List.dropWhile_eq_nil_iff.mpr (List.all_eq_true.mp hblank)
      simp [ofLine?, Text.splitWord, htrim] at h

namespace Session

/-- All that can be seen of a session: its answers, how it ended, and its variables at the end. -/
def Transcript.view (t : Transcript) :
    List Step × Reply × Option Fault × List (String × Except Fault String) :=
  (t.steps, t.last, t.fault, t.final.listing)

/-- A reset forgets everything. Whatever has happened in a session before, once it has been reset
it answers all further events as a new one with the same traceback setting does, and has the same
variables after them. -/
theorem view_after_reset (limits : Limits) (s : Session) {line : String}
    (hline : Command.ofLine? (normalize line) = some .reset) :
    ∃ s' : Session,
      s.submit limits line = .done s' (.reply (.say "Environment reset.\n")) ∧
      ∀ events,
        (s'.converse limits events).view = ((start s.tracing).converse limits events).view := by
  refine ⟨s.renew, ?_, fun events => ?_⟩
  · simp only [submit, Command.all_isBlank_of_ofLine? hline, hline]
    rfl
  · have hplain : (start s.tracing).heap.HasPlainBodies := by
      rw [start, heap_renew]
      exact fun c hc => absurd hc (Array.not_mem_empty c)
    rw [renew_eq_above, converse_above _ limits hplain]
    simp only [Transcript.view, Transcript.above, listing_above]

/-- A session in which the word for truth means the contrary, and a function is bound. -/
def misled : Session :=
  ((start false).converse ⟨9, 9, 9⟩
    [.text "set(true, false)", .text "define(f, fun(array(f)))", .text "f()"]).final

theorem view_after_reset_misled :
    Command.ofLine? (normalize "/reset") = some .reset ∧
    misled.forest.lookup? misled.scope "true" = some (.bool false) ∧
    ∃ s' : Session,
      misled.submit ⟨9, 9, 9⟩ "/reset" = .done s' (.reply (.say "Environment reset.\n")) ∧
      (s'.converse ⟨9, 9, 9⟩ [.text "define(x, array(true))", .text "==(x, x)"]).view =
        ((start misled.tracing).converse ⟨9, 9, 9⟩
          [.text "define(x, array(true))", .text "==(x, x)"]).view := by
  have hline : Command.ofLine? (normalize "/reset") = some .reset := by decide +kernel
  obtain ⟨s', hsubmit, hview⟩ := view_after_reset ⟨9, 9, 9⟩ misled hline
  exact ⟨hline, by decide +kernel, s', hsubmit, hview _⟩

end Session

end Egg
