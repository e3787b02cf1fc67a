import Egg.Form.Basic
import Egg.Text.Lines
import Egg.Token.Basic

namespace Egg.Highlight

/-- The groups of tokens that are coloured alike. -/
inductive Group where
  | keyword
  | boolean
  | number
  | string
  | identifier
  | punctuation
  | comment
  | error
  | blank
deriving DecidableEq, Repr

def Group.style : Group → String
  | keyword => "bold ansicyan"
  | boolean => "ansicyan"
  | number => "ansimagenta"
  | string => "ansigreen"
  | comment => "italic ansigray"
  | error => "bold ansired"
  | identifier | punctuation | blank => ""

def Group.ofWord (word : String) : Group :=
  if (Form.ofWord? word).isSome then keyword
  else if word = "true" || word = "false" then boolean
  else identifier

def Group.ofToken (t : Token) : Group :=
  match t.kind with
  | .string => string
  | .number => number
  | .word => ofWord t.text
  | .opening | .closing | .comma => punctuation
  | .comment => comment
  | .blank => blank
  | .unclosed => error

/-- A piece of text in one style. -/
structure Fragment where
  style : String
  text : String
deriving DecidableEq, Repr

/-- What stands for a line without text. -/
def nothing : List Fragment := [⟨"", ""⟩]

def line (text : String) : List Fragment :=
  if text.isEmpty then nothing
  else (Token.scanAll text).map fun t => ⟨(Group.ofToken t).style, t.text⟩

/-- The fragments of a line of a document, counted from zero. -/
def lineOf (document : String) (number : Nat) : List Fragment :=
  match (Text.lines document.toList)[number]? with
  | some cs => line (String.ofList cs)
  | none => nothing

/-- A document that is being shown, with the fragments of the lines that were asked for so far. -/
structure Painter where
  document : String
  painted : List (Nat × List Fragment)

namespace Painter

def start (document : String) : Painter := ⟨document, []⟩

/-- The fragments of a line. A line is coloured when it is asked for the first time. -/
def ask (p : Painter) (number : Nat) : List Fragment × Painter :=
  match p.painted.lookup number with
  | some fragments => (fragments, p)
  | none =>
    let fragments := lineOf p.document number
    (fragments, { p with painted := (number, fragments) :: p.painted })

def askAll (p : Painter) : List Nat → List (List Fragment)
  | [] => []
  | number :: numbers =>
    let (fragments, p) := p.ask number
    fragments :: p.askAll numbers

end Painter

end Egg.Highlight
