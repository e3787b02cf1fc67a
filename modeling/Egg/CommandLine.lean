import Egg.Expr.Outline
import Egg.Program
import Egg.Report
import Egg.Text.Lines
import Egg.Text.Utf8

namespace Egg.CommandLine

/-- What a command line asks for: a session, or that a program be run or outlined. The program is
named by an argument or read from standard input. -/
inductive Request where
  | session
  | program (outline : Bool) (argument : Option String)
deriving DecidableEq, Repr

inductive Refusal where
  | unknownFlag (flag : String)
  | unexpectedArgument (argument : String)
  | noInput
deriving DecidableEq, Repr

def Refusal.message : Refusal → String
  | unknownFlag flag => "Unknown flag: " ++ flag
  | unexpectedArgument argument => "Unexpected argument: " ++ argument
  | noInput => "No input provided on stdin"

/-- Read arguments from left to right, after those that have set the given request. Asking for a
session takes effect at once. -/
def readFrom (outline : Bool) (argument : Option String) : List String → Except Refusal Request
  | [] => .ok (.program outline argument)
  | "--ast" :: rest => readFrom true argument rest
  | "--repl" :: _ => .ok .session
  | word :: rest =>
    if "--".toList.isPrefixOf word.toList then .error (.unknownFlag word)
    else
      match argument with
      | none => readFrom outline (some word) rest
      | some _ => .error (.unexpectedArgument word)

def read (arguments : List String) : Except Refusal Request :=
  readFrom false none arguments

/-- The parts of a path that lead to a file. -/
def pathParts (path : String) : List String :=
  (path.splitOn "/").filter fun part => part ≠ "" && part ≠ "."

def plainPath (path : String) : String :=
  let root := if path.toList.head? = some '/' then "/" else ""
  root ++ "/".intercalate (pathParts path)

/-- The argument that is to be looked up as a file; without one, or with a dash, the program comes
from standard input. -/
def named? : Option String → Option String
  | none => none
  | some "-" => none
  | some argument => some argument

def standardSource (input : String) : Except Refusal String :=
  if input.isEmpty then .error .noInput
  else .ok (String.ofList (Text.unifyLineEnds input.toList))

/-- The program that an argument names: the contents of the file, if there is one, and otherwise
the argument itself. -/
def namedSource (argument : String) (file : Option (List UInt8)) : Except Utf8.Error String :=
  match file with
  | some bytes => do return String.ofList (Text.unifyLineEnds (← Utf8.decode bytes))
  | none => .ok argument

/-- What comes of a program: what it wrote on each channel, and the exit code or the fault that
ended it. -/
structure Outcome where
  out : String
  err : String
  ending : Except Fault Nat

/-- The outcome of an execution that writes and may stop. -/
def Outcome.ofRun (tracing : Bool) (result : Except Stop Unit × Machine) : Outcome :=
  match result with
  | (.ok _, m) => ⟨m.output, "", .ok 0⟩
  | (.error (.fault fault), m) => ⟨m.output, "", .error fault⟩
  | (.error stop, m) => ⟨m.output, Report.error tracing stop, .ok 1⟩

def writeOutline (limits : Limits) (source : String) : Exec Unit := do
  let e ← MonadExcept.ofExcept (Expr.parse limits.nesting source)
  Exec.print (← Exec.ofFault (e.outline .empty "  "))

def runProgram (limits : Limits) (source : String) : Exec Unit := do
  let _ ← Program.run limits (← Exec.newProgramScope .standard) source

/-- Do what a request asks for with the source of a program. -/
def execute (limits : Limits) (tracing outline : Bool) (source : String) : Outcome :=
  let job := if outline then writeOutline limits source else runProgram limits source
  .ofRun tracing (job.run .empty)

end Egg.CommandLine
