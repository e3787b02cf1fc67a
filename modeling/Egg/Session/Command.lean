import Egg.Text.Blank

namespace Egg

inductive Command where
  | clear
  | traceback (argument : String)
  | reset
  | unknown (word : String)
deriving DecidableEq, Repr

namespace Command

/-- What is known of a command before it is given. -/
structure Entry where
  word : String
  description : String
  hint : String

def entries : List Entry :=
  [⟨"/clear", "Clear the terminal screen", ""⟩,
    ⟨"/py-traceback", "Toggle Python traceback on errors", "[on|off]"⟩,
    ⟨"/reset", "Reset the REPL environment", ""⟩]

/-- The command that a line gives, if its first word starts with a slash. -/
def ofLine? (line : String) : Option Command :=
  let (word, argument) := Text.splitWord line.toList
  if word.head? = some '/' then
    some <| match String.ofList word with
      | "/clear" => clear
      | "/py-traceback" => traceback (String.ofList argument)
      | "/reset" => reset
      | other => unknown other
  else none

/-- A completion: the text to insert, where to insert it counted from the cursor, and how it is
offered. -/
structure Completion where
  text : String
  start : Int
  display : String
  description : String
deriving DecidableEq, Repr

/-- The completion that a known command offers for what has been typed before the cursor. -/
def Entry.completion (e : Entry) (typed : List Char) : Completion :=
  let display := e.word.toList ++ ' ' :: e.hint.toList
  ⟨e.word, -typed.length, String.ofList (Text.trimRight display), e.description⟩

def completions (typed : String) : List Completion :=
  let cs := typed.toList
  if cs.head? = some '/' then
    (entries.filter fun e => cs.isPrefixOf e.word.toList).map (·.completion cs)
  else []

end Command

end Egg
