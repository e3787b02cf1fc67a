import Egg.Text.Blank

namespace Egg

/-- A character that continues a number into a word. -/
def isWordChar (c : Char) : Bool :=
  c.isAlphanum || c = '_'

/-- A character that can stand in a bare word. -/
def isNameChar (c : Char) : Bool :=
  !(Text.isBlank c || c = '(' || c = ')' || c = ',' || c = '"')

/-- The blanks and comments at the front of a text. A comment runs from `#` to the end of its
line; `inComment` tells that the text starts inside one. -/
def layout (inComment : Bool) : List Char → List Char
  | [] => []
  | c :: cs =>
    if inComment && c != '\n' then c :: layout true cs
    else if Text.isBlank c then c :: layout false cs
    else if c = '#' then c :: layout true cs
    else []

/-- The number of the first offset, at or after the given one, that is not inside layout. An
offset beyond the end counts as the end. -/
def skipIndex (source : List Char) (offset : Nat) : Nat :=
  let offset := min offset source.length
  offset + (layout false (source.drop offset)).length

def skipLayout (cs : List Char) : List Char :=
  cs.drop (layout false cs).length

theorem layout_prefix_self (inComment : Bool) (cs : List Char) : layout inComment cs <+: cs := by
  induction cs generalizing inComment with
  | nil => exact List.prefix_rfl
  | cons c cs ih =>
    unfold layout
    split
    · exact List.cons_prefix_cons.mpr ⟨rfl, ih true⟩
    · split
      · exact List.cons_prefix_cons.mpr ⟨rfl, ih false⟩
      · split
        · exact List.cons_prefix_cons.mpr ⟨rfl, ih true⟩
        · exact List.nil_prefix

theorem layout_skipLayout (cs : List Char) : layout false (skipLayout cs) = [] := by
  suffices h : ∀ b, layout false (cs.drop (layout b cs).length) = [] from h false
  induction cs with
  | nil => simp [layout]
  | cons c cs ih =>
    intro b
    rw [layout]
    split
    · simpa using ih true
    · split
      · simpa using ih false
      · split
        · simpa using ih true
        · simp_all [layout]

/-- An atom, by the characters that make it up. A string is given without its quotes. -/
inductive Atom where
  | string (body : List Char)
  | number (digits : List Char)
  | word (name : List Char)
deriving DecidableEq, Repr

namespace Atom

/-- The characters of an atom as they stand in the source. -/
def text : Atom → List Char
  | string body => '"' :: (body ++ ['"'])
  | number digits => digits
  | word name => name

/-- The body of the closed string at the front of a text. -/
def string? : List Char → Option (List Char)
  | '"' :: cs => if cs.contains '"' then some (cs.takeWhile (· ≠ '"')) else none
  | _ => none

/-- The digits at the front of a text, provided that they do not run on into a word. -/
def number? (cs : List Char) : Option (List Char) :=
  let digits := cs.takeWhile Char.isDigit
  if digits.isEmpty || (cs.drop digits.length).head?.any isWordChar then none else some digits

def word? (cs : List Char) : Option (List Char) :=
  let name := cs.takeWhile isNameChar
  if name.isEmpty then none else some name

/-- The atom at the front of a text: a string, else a number, else a word. -/
def read? (cs : List Char) : Option Atom :=
  ((string? cs).map string).or (((number? cs).map number).or ((word? cs).map word))

theorem text_ne_nil_of_read? {cs : List Char} {a : Atom} (h : read? cs = some a) :
    a.text ≠ [] := by
  cases a with
  | string body => simp [text]
  | number digits =>
    simp only [read?, Option.or_eq_some_iff, Option.map_eq_some_iff] at h
    simp only [text]
    rcases h with ⟨_, _, h⟩ | ⟨_, ⟨_, h, h'⟩ | ⟨_, _, _, h⟩⟩
    · cases h
    · cases h'
      simp only [number?] at h
      grind
    · cases h
  | word name =>
    simp only [read?, Option.or_eq_some_iff, Option.map_eq_some_iff] at h
    simp only [text]
    rcases h with ⟨_, _, h⟩ | ⟨_, ⟨_, _, h⟩ | ⟨_, _, h, h'⟩⟩
    · cases h
    · cases h
    · cases h'
      simp only [word?] at h
      grind

theorem ne_nil_of_read? {cs : List Char} {a : Atom} (h : read? cs = some a) : cs ≠ [] := by
  rintro rfl
  simp [read?, string?, number?, word?] at h

theorem takeWhile_quote_prefix_self {cs : List Char} (h : '"' ∈ cs) :
    cs.takeWhile (· ≠ '"') ++ ['"'] <+: cs := by
  induction cs with
  | nil => simp at h
  | cons c cs ih =>
    by_cases hc : c = '"'
    · simp [hc]
    · have hm : '"' ∈ cs := by
        rcases List.mem_cons.mp h with h | h
        · exact absurd h.symm hc
        · exact h
      simpa [List.takeWhile_cons, hc] using ih hm

theorem text_prefix_of_string? {cs body : List Char} (h : string? cs = some body) :
    (string body).text <+: cs := by
  unfold string? at h
  split at h
  · split at h
    · next hq =>
      cases h
      exact List.cons_prefix_cons.mpr ⟨rfl, takeWhile_quote_prefix_self (by simpa using hq)⟩
    · cases h
  · cases h

theorem text_prefix_of_read? {cs : List Char} {a : Atom} (h : read? cs = some a) :
    a.text <+: cs := by
  simp only [read?, Option.or_eq_some_iff, Option.map_eq_some_iff] at h
  rcases h with ⟨_, h, rfl⟩ | ⟨_, ⟨_, h, rfl⟩ | ⟨_, _, h, rfl⟩⟩
  · exact text_prefix_of_string? h
  · simp only [number?] at h
    split at h
    · cases h
    · cases h
      exact List.takeWhile_prefix _
  · simp only [word?] at h
    split at h
    · cases h
    · cases h
      exact List.takeWhile_prefix _

end Atom

end Egg
