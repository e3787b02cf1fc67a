import Egg.Error
import Egg.Token.Atom

/-!
Reading an expression straight off the source text. An expression is an atom followed by any
number of argument lists in parentheses; a comma separates arguments and may also stand after the
last one. How deep expressions may stand inside one another is bounded by a limit.
-/

namespace Egg

/-- A place in a source text and what follows it. -/
structure Cursor where
  position : Position
  rest : List Char

namespace Cursor

def ofText (cs : List Char) : Cursor := ⟨.start, cs⟩

/-- Move over the characters of a text that stands at the cursor. -/
def move (c : Cursor) (text : List Char) : Cursor :=
  ⟨c.position.after text, c.rest.drop text.length⟩

def skip (c : Cursor) : Cursor :=
  c.move (layout false c.rest)

def next (c : Cursor) : Cursor :=
  c.move (c.rest.take 1)

def reject {α : Type} (c : Cursor) (reason : Reason) : Except Stop α :=
  .error (.rejected ⟨reason, c.position, String.ofList c.rest⟩)

theorem length_move_le (c : Cursor) (text : List Char) :
    (c.move text).rest.length ≤ c.rest.length := by
  simp [move]

theorem length_skip_le (c : Cursor) : c.skip.rest.length ≤ c.rest.length :=
  c.length_move_le _

theorem length_move_lt {c : Cursor} {text : List Char} (hc : c.rest ≠ []) (ht : text ≠ []) :
    (c.move text).rest.length < c.rest.length := by
  have h₁ := List.length_pos_iff.mpr hc
  have h₂ := List.length_pos_iff.mpr ht
  simp only [move, List.length_drop]
  omega

theorem length_next_lt {c : Cursor} {a : Char} (h : c.rest.head? = some a) :
    c.next.rest.length < c.rest.length := by
  obtain ⟨cs, h⟩ := List.head?_eq_some_iff.mp h
  exact length_move_lt (by simp [h]) (by simp [h])

end Cursor

/-- The literal or name that an atom stands for. -/
def Atom.toExpr (atom : Atom) (position : Position) : Expr :=
  match atom with
  | .string body => .literal (.string (String.ofList body)) (some position)
  | .number digits => .literal (.number (.ofDigits digits)) (some position)
  | .word name => .name (String.ofList name) .source (some position)

namespace Expr

/-- A result of reading, together with a cursor that has moved on. -/
abbrev Moved (c : Cursor) (α : Type) : Type :=
  { r : α × Cursor // r.2.rest.length < c.rest.length }

/-- A way of reading something at a cursor. -/
abbrev Reader (α : Type) : Type :=
  (c : Cursor) → Except Stop (Moved c α)

/-- Read arguments up to and including the closing parenthesis. -/
def readArguments (item : Reader Expr) (c : Cursor) : Except Stop (Moved c (List Expr)) :=
  if hclose : c.skip.rest.head? = some ')' then
    .ok ⟨([], c.skip.next),
      Nat.lt_of_lt_of_le (Cursor.length_next_lt hclose) c.length_skip_le⟩
  else do
    let ⟨(e, c₁), h₁⟩ ← item c
    if hcomma : c₁.rest.head? = some ',' then
      let ⟨(es, c₂), h₂⟩ ← readArguments item c₁.next
      return ⟨(e :: es, c₂), Nat.lt_trans h₂ (Nat.lt_trans (Cursor.length_next_lt hcomma) h₁)⟩
    else if c₁.rest.head? = some ')' then
      let ⟨(es, c₂), h₂⟩ ← readArguments item c₁
      return ⟨(e :: es, c₂), Nat.lt_trans h₂ h₁⟩
    else
      c₁.reject .noSeparator
termination_by c.rest.length
decreasing_by
  · exact Nat.lt_trans (Cursor.length_next_lt hcomma) h₁
  · exact h₁

/-- Read the argument lists that follow an operator. The cursor is left behind the layout that
follows them. -/
def readApplications (item : Reader Expr) (operator : Expr) (c : Cursor) :
    Except Stop { r : Expr × Cursor // r.2.rest.length ≤ c.rest.length } :=
  if hopen : c.skip.rest.head? = some '(' then do
    let ⟨(arguments, c₁), h₁⟩ ← readArguments item c.skip.next
    have h : c₁.rest.length < c.rest.length :=
      Nat.lt_trans h₁ (Nat.lt_of_lt_of_le (Cursor.length_next_lt hopen) c.length_skip_le)
    let ⟨(e, c₂), h₂⟩ ← readApplications item (apply operator arguments operator.position) c₁
    return ⟨(e, c₂), Nat.le_trans h₂ (Nat.le_of_lt h)⟩
  else
    .ok ⟨(operator, c.skip), c.length_skip_le⟩
termination_by c.rest.length

/-- Read an expression, in which others may stand at most `limit` deep. -/
def readExpression : (limit : Nat) → Reader Expr
  | 0, _ => .error (.fault .tooDeep)
  | limit + 1, c =>
    match hatom : Atom.read? c.skip.rest with
    | none => c.skip.reject .noExpression
    | some atom => do
      have h : (c.skip.move atom.text).rest.length < c.rest.length :=
        Nat.lt_of_lt_of_le (Cursor.length_move_lt (Atom.ne_nil_of_read? hatom)
          (Atom.text_ne_nil_of_read? hatom)) c.length_skip_le
      let ⟨(e, c₁), h₁⟩ ← readApplications (readExpression limit) (atom.toExpr c.skip.position)
        (c.skip.move atom.text)
      return ⟨(e, c₁), Nat.lt_of_le_of_lt h₁ h⟩

/-- Read one expression at the front of a text, and give what follows it. -/
def parsePrefix (limit : Nat) (text : String) : Except Stop (Expr × String) := do
  let ⟨(e, c), _⟩ ← readExpression limit (.ofText text.toList)
  return (e, String.ofList c.rest)

/-- Read a whole program: one expression, and nothing after it. -/
def parse (limit : Nat) (source : String) : Except Stop Expr := do
  let ⟨(e, c), _⟩ ← readExpression limit (.ofText source.toList)
  if c.rest.isEmpty then return e else c.reject .trailingText

end Expr

end Egg
