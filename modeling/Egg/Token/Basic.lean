import Egg.Position
import Egg.Token.Atom

namespace Egg

inductive Token.Kind where
  | string
  | number
  | word
  | opening
  | closing
  | comma
  | blank
  | comment
  | unclosed
deriving DecidableEq, Repr

/-- A piece of source text with the place where it starts. -/
structure Token where
  kind : Token.Kind
  text : String
  start : Position
deriving DecidableEq, Repr

namespace Token

/-- Layout separates the other tokens and is of no further interest to a reader. -/
def Kind.isLayout : Kind → Bool
  | blank | comment => true
  | _ => false

/-- The offset of the first character after a token. -/
def stop (t : Token) : Nat :=
  t.start.offset + t.text.length

def Kind.ofAtom : Atom → Kind
  | .string _ => string
  | .number _ => number
  | .word _ => word

/-- The kind and the characters of the token that starts with `c` and goes on into `cs`. -/
def lexeme (c : Char) (cs : List Char) : Kind × List Char :=
  if Text.isBlank c then (.blank, c :: cs.takeWhile Text.isBlank)
  else if c = '#' then (.comment, c :: cs.takeWhile (· ≠ '\n'))
  else if c = '(' then (.opening, [c])
  else if c = ')' then (.closing, [c])
  else if c = ',' then (.comma, [c])
  else
    match Atom.read? (c :: cs) with
    | some atom => (.ofAtom atom, atom.text)
    | none => (.unclosed, c :: cs)

/-- The tokens of a text that starts at the given place. The place moves on over every token, but
layout is left out unless it is to be emitted. -/
def scanFrom (emitLayout : Bool) (place : Position) : List Char → List Token
  | [] => []
  | c :: cs =>
    let (kind, text) := lexeme c cs
    let rest := scanFrom emitLayout (place.after text) (cs.drop (text.length - 1))
    if !kind.isLayout || emitLayout then ⟨kind, String.ofList text, place⟩ :: rest else rest
termination_by cs => cs.length
decreasing_by simp only [List.length_drop, List.length_cons]; omega

/-- All tokens of a source text, layout included. -/
def scanAll (source : String) : List Token :=
  scanFrom true .start source.toList

/-- The tokens of a source text, layout left out. -/
def scan (source : String) : List Token :=
  scanFrom false .start source.toList

/-- How many parentheses the tokens open and do not close. It is negative if more are closed. -/
def depth (tokens : List Token) : Int :=
  tokens.foldl (fun depth t =>
    match t.kind with
    | .opening => depth + 1
    | .closing => depth - 1
    | _ => depth) 0

def hasUnclosed (tokens : List Token) : Bool :=
  tokens.any (·.kind = .unclosed)

/-- A text needs more input while a parenthesis or a string is open. -/
def needsMore (source : String) : Bool :=
  let tokens := scan source
  0 < depth tokens || hasUnclosed tokens

end Token

end Egg
