import Egg.Program
import Egg.Report
import Egg.Session.Command
import Egg.Token.Basic

namespace Egg

/-- The state of a session between two inputs: the scopes and the heap that its programs have
made, the scope in which they run, and whether errors are reported with a traceback. -/
structure Session where
  forest : Forest
  heap : Heap
  scope : ScopeId
  tracing : Bool

/-- What a session writes, on each of its two channels, in answer to an input, and whether it
clears the screen. -/
structure Reply where
  out : String
  err : String
  clears : Bool
deriving DecidableEq, Repr

namespace Reply

def silent : Reply := ⟨"", "", false⟩

def say (out : String) : Reply := ⟨out, "", false⟩

def warn (err : String) : Reply := ⟨"", err, false⟩

end Reply

inductive Event where
  | text (text : String)
  | interrupt
  | enter (buffer : String)
deriving DecidableEq, Repr

inductive Key where
  | submit
  | newLine
deriving DecidableEq, Repr

inductive Step where
  | reply (reply : Reply)
  | key (key : Key)
deriving DecidableEq, Repr

/-- How a session goes on from an event: it takes a step, or a fault breaks it off. -/
inductive Turn where
  | done (session : Session) (step : Step)
  | broken (session : Session) (reply : Reply) (fault : Fault)

namespace Session

/-- Go on in a fresh scope for programs, inside a fresh outermost one. The scopes and the heap
from before are still there, but no name leads to them any more. -/
def renew (s : Session) : Session :=
  let forest := s.forest.pushProgram .standard
  { s with forest := forest, scope := forest.size - 1 }

def start (tracing : Bool) : Session :=
  renew ⟨.empty, .empty, 0, tracing⟩

/-- The machine on which the next program of a session runs. -/
def machine (s : Session) : Machine := ⟨s.forest, s.heap, ""⟩

/-- The session after a program has left a machine behind. -/
def resume (s : Session) (m : Machine) : Session :=
  { s with forest := m.forest, heap := m.heap }

/-- The variables of a session with how their values are shown, sorted by name. -/
def listing (s : Session) : List (String × Except Fault String) :=
  let bindings := ((s.forest.get? s.scope).map Scope.sorted).getD []
  bindings.map fun b => (b.name, s.heap.display b.value)

/-- What an argument switches the traceback to; an empty one switches it over. -/
def switch? (tracing : Bool) (argument : String) : Option Bool :=
  let word := String.ofList (Text.lower argument.toList)
  if argument.isEmpty then some !tracing
  else if Report.onWords.contains word then some true
  else if Report.offWords.contains word then some false
  else none

def obey (s : Session) : Command → Session × Reply
  | .clear => (s, { Reply.silent with clears := true })
  | .traceback argument =>
    match switch? s.tracing argument with
    | some tracing =>
      ({ s with tracing := tracing },
        .say (if tracing then "Python traceback: on\n" else "Python traceback: off\n"))
    | none => (s, .warn "Usage: /py-traceback [on|off]\n")
  | .reset => (s.renew, .say "Environment reset.\n")
  | .unknown word => (s, .warn ("Unknown command: " ++ word ++ "\n"))

/-- Run a program in a scope and show its value. -/
def showValue (limits : Limits) (scope : ScopeId) (source : String) : Exec String := do
  Exec.display (← Program.run limits scope source)

/-- Run a program in the scope of the session, and answer with what it printed and its value. -/
def runProgram (limits : Limits) (s : Session) (source : String) : Turn :=
  match (showValue limits s.scope source).run s.machine with
  | (.ok shown, m) => .done (s.resume m) (.reply (.say (m.output ++ shown ++ "\n")))
  | (.error (.fault fault), m) => .broken (s.resume m) (.say m.output) fault
  | (.error stop, m) => .done (s.resume m) (.reply ⟨m.output, Report.error s.tracing stop, false⟩)

/-- The code points of the characters that are taken out of every input because they do not show.
-/
def invisible : List Nat := [0x200B, 0x200C, 0x200D, 0xFEFF, 0x00A0, 0x000D]

/-- An input without the characters that do not show. -/
def normalize (text : String) : String :=
  String.ofList (text.toList.filter fun c => !invisible.contains c.toNat)

/-- Take in a text: a blank one is passed over, a slash command is obeyed, and anything else is
run as a program. -/
def submit (limits : Limits) (s : Session) (text : String) : Turn :=
  let text := normalize text
  if text.toList.all Text.isBlank then .done s (.reply .silent)
  else
    match Command.ofLine? text with
    | some command =>
      let (s, reply) := s.obey command
      .done s (.reply reply)
    | none => s.runProgram limits text

/-- The Enter key submits a command and a program that needs no more input. -/
def onEnter (buffer : String) : Key :=
  if (Text.trimLeft buffer.toList).head? = some '/' || !Token.needsMore buffer then .submit
  else .newLine

def feed (limits : Limits) (s : Session) : Event → Turn
  | .text text => s.submit limits text
  | .interrupt => .done s (.reply (.say "KeyboardInterrupt\n"))
  | .enter buffer => .done s (.key (onEnter buffer))

def banner : Reply := .say "egg repl - Ctrl-D to exit, / for commands\n"

def farewell : Reply := .say "\n"

/-- A session from its first event to its end: the steps, what was written after the last of them,
and the fault that ended it, if one did. -/
structure Transcript where
  steps : List Step
  last : Reply
  fault : Option Fault
  final : Session

/-- Take in events one after the other until they end or a fault breaks the session off. -/
def converse (limits : Limits) (s : Session) : List Event → Transcript
  | [] => ⟨[], farewell, none, s⟩
  | event :: events =>
    match s.feed limits event with
    | .done s step =>
      let t := s.converse limits events
      { t with steps := step :: t.steps }
    | .broken s reply fault => ⟨[], reply, some fault, s⟩

end Session

end Egg
