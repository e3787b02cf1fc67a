import Egg.CommandLine
import Egg.Session.Basic

namespace Egg.Terminal

def clearScreen : String := "\x1b[2J\x1b[H"

def write (r : Reply) : IO Unit := do
  if r.clears then IO.print clearScreen
  IO.print r.out
  IO.eprint r.err

def fail (message : String) : IO UInt32 := do
  IO.eprintln message
  return 1

/-- Everything on standard input. -/
partial def readAll (input : IO.FS.Stream) (before : String) : IO String := do
  let line ← input.getLine
  if line.isEmpty then return before else readAll input (before ++ line)

/-- Read lines until the Enter key submits them; there is none at the end of the input. -/
partial def readText (input : IO.FS.Stream) (before : String) : IO (Option String) := do
  IO.print (if before.isEmpty then ">>> " else "... ")
  (← IO.getStdout).flush
  let line ← input.getLine
  if line.isEmpty then return none
  let buffer := before ++ (line.dropEndWhile (· == '\n')).toString
  match Session.onEnter buffer with
  | .submit => return some buffer
  | .newLine => readText input (buffer ++ "\n")

/-- Hold a session until its input ends or a fault breaks it off. -/
partial def converse (input : IO.FS.Stream) (s : Session) : IO UInt32 := do
  match ← readText input "" with
  | none =>
    write Session.farewell
    return 0
  | some text =>
    match s.submit .standard text with
    | .done s (.reply r) =>
      write r
      converse input s
    | .done s (.key _) => converse input s
    | .broken _ r fault =>
      write r
      fail fault.message

/-- The bytes of a file, if there is one. -/
def readFile? (path : String) : IO (Option (List UInt8)) :=
  try
    return some (← IO.FS.readBinFile path).toList
  catch _ => return none

def execute (tracing outline : Bool) (source : String) : IO UInt32 := do
  let outcome := CommandLine.execute .standard tracing outline source
  IO.print outcome.out
  IO.eprint outcome.err
  match outcome.ending with
  | .ok code => return code.toUInt32
  | .error fault => fail fault.message

end Egg.Terminal

open Egg Terminal

def main (arguments : List String) : IO UInt32 := do
  let tracing := Report.tracing ((← IO.getEnv "EGG_DEBUG_PY_TRACE").getD "")
  match CommandLine.read arguments with
  | .error refusal => fail refusal.message
  | .ok .session =>
    write Session.banner
    converse (← IO.getStdin) (Session.start tracing)
  | .ok (.program outline argument) =>
    match CommandLine.named? argument with
    | none =>
      match CommandLine.standardSource (← readAll (← IO.getStdin) "") with
      | .ok source => execute tracing outline source
      | .error refusal => fail refusal.message
    | some argument =>
      match CommandLine.namedSource argument (← readFile? (CommandLine.plainPath argument)) with
      | .ok source => execute tracing outline source
      | .error e => fail e.message
