namespace Egg

/-- A place in a source text: lines and columns count from one, the offset counts the characters
before the place. -/
structure Position where
  line : Nat
  column : Nat
  offset : Nat
deriving DecidableEq, Repr

namespace Position

def start : Position := ⟨1, 1, 0⟩

/-- The place after one more character. Only a line feed starts a new line. -/
def advance (p : Position) (c : Char) : Position :=
  if c = '\n' then ⟨p.line + 1, 1, p.offset + 1⟩ else ⟨p.line, p.column + 1, p.offset + 1⟩

/-- The place after the characters of a text. -/
def after (p : Position) (cs : List Char) : Position :=
  cs.foldl advance p

@[simp] theorem after_nil (p : Position) : p.after [] = p := rfl

@[simp] theorem after_cons (p : Position) (c : Char) (cs : List Char) :
    p.after (c :: cs) = (p.advance c).after cs := rfl

theorem after_append (p : Position) (cs ds : List Char) :
    p.after (cs ++ ds) = (p.after cs).after ds := by
  simp [after]

@[simp] theorem offset_advance (p : Position) (c : Char) : (p.advance c).offset = p.offset + 1 := by
  unfold advance
  split <;> rfl

@[simp] theorem offset_after (p : Position) (cs : List Char) :
    (p.after cs).offset = p.offset + cs.length := by
  induction cs generalizing p with
  | nil => rfl
  | cons c cs ih => rw [after_cons, ih, offset_advance, List.length_cons]; omega

end Position

/-- The line and column of an offset, read off the characters before it. An offset beyond the end
counts on along the last line. -/
def lineCol (source : List Char) (offset : Nat) : Nat × Nat :=
  let before := source.take offset
  let lastLine := before.reverse.takeWhile (· ≠ '\n')
  (before.count '\n' + 1, offset - before.length + lastLine.length + 1)

end Egg
