import Egg.Text.Visible

namespace Egg.Text

/-- A text that holds an apostrophe and no double quote stands in double quotes, any other in
single ones. -/
def quoteMark (cs : List Char) : Char :=
  if cs.contains '\'' && !cs.contains '"' then '"' else '\''

/-- A number in small hexadecimal digits, filled up with zeros to a width. -/
def hex (width n : Nat) : List Char :=
  let digits := Nat.toDigits 16 n
  List.replicate (width - digits.length) '0' ++ digits

/-- A character by its code point, in two, four or eight digits, as few as can hold it. -/
def escapeCode (c : Char) : List Char :=
  if c.toNat < 0x100 then '\\' :: 'x' :: hex 2 c.toNat
  else if c.toNat < 0x10000 then '\\' :: 'u' :: hex 4 c.toNat
  else '\\' :: 'U' :: hex 8 c.toNat

def escapeChar (mark c : Char) : List Char :=
  if c = mark || c = '\\' then ['\\', c]
  else if c = '\n' then ['\\', 'n']
  else if c = '\r' then ['\\', 'r']
  else if c = '\t' then ['\\', 't']
  else if isVisible c then [c]
  else escapeCode c

def quote (text : String) : String :=
  let cs := text.toList
  let mark := quoteMark cs
  String.ofList (mark :: (cs.flatMap (escapeChar mark) ++ [mark]))

end Egg.Text
