namespace Egg

inductive Form where
  | conditional
  | loop
  | sequence
  | define
  | assign
  | function
deriving DecidableEq, Repr

namespace Form

def word : Form → String
  | conditional => "if"
  | loop => "while"
  | sequence => "do"
  | define => "define"
  | assign => "set"
  | function => "fun"

def all : List Form :=
  [conditional, loop, sequence, define, assign, function]

/-- The special form that a word stands for. -/
def ofWord? (word : String) : Option Form :=
  all.find? (·.word = word)

end Form

end Egg
