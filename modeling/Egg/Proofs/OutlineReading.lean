import Egg.Expr.Outline
import Egg.Proofs.IntFree
import Egg.Proofs.PrintedTerm

namespace Egg

theorem eq_of_append_cons_eq {a : Char} {xs ys rest rest' : List Char} (hxs : a ∉ xs) (hys : a ∉ ys)
    (h : xs ++ a :: rest = ys ++ a :: rest') : xs = ys ∧ rest = rest' := by
  induction xs generalizing ys with
  | nil =>
      rcases ys with _ | ⟨y, ys⟩
      · exact ⟨rfl, (List.cons.inj h).2⟩
      · exact absurd (List.cons.inj h).1 (List.ne_of_not_mem_cons hys)
  | cons x xs ih =>
      rcases ys with _ | ⟨y, ys⟩
      · exact absurd (List.cons.inj h).1.symm (List.ne_of_not_mem_cons hxs)
      · obtain ⟨rfl, htail⟩ := List.cons.inj h
        obtain ⟨rfl, hrest⟩ :=
          ih (List.not_mem_of_not_mem_cons hxs) (List.not_mem_of_not_mem_cons hys) htail
        exact ⟨rfl, hrest⟩

/-- What stands in the text of a number besides digits: signs, a point, an exponent mark and the
letters of what is not finite. -/
def numeralMarks : List Char := ['+', '-', '.', 'a', 'e', 'f', 'i', 'n']

/-- That characters can stand in the text of a number. -/
def Numeral (cs : List Char) : Prop :=
  ∀ c ∈ cs, c.isDigit = true ∨ c ∈ numeralMarks

namespace Numeral

variable {cs ds : List Char} {c : Char}

theorem append (hcs : Numeral cs) (hds : Numeral ds) : Numeral (cs ++ ds) :=
  List.forall_mem_append.mpr ⟨hcs, hds⟩

theorem cons (hc : c ∈ numeralMarks) (hcs : Numeral cs) : Numeral (c :: cs) :=
  List.forall_mem_cons.mpr ⟨.inr hc, hcs⟩

theorem mono (hcs : Numeral cs) (h : ds ⊆ cs) : Numeral ds :=
  fun c hc => hcs c (h hc)

theorem zeros (n : Nat) : Numeral (List.replicate n '0') := by
  intro c hc
  rw [List.eq_of_mem_replicate hc]
  exact .inl rfl

theorem toDigits (n : Nat) : Numeral (Nat.toDigits 10 n) :=
  fun _ hc => .inl (Nat.isDigit_of_mem_toDigits (by omega) (by omega) hc)

theorem notMem (hcs : Numeral cs) (hdigit : c.isDigit = false) (hc : c ∉ numeralMarks) :
    c ∉ cs := by
  intro hmem
  rcases hcs c hmem with h | h
  · rw [hdigit] at h
    cases h
  · exact hc h

end Numeral

namespace DecimalFormat

theorem numeral_plain {digits : List Char} (h : Numeral digits) (point : Int) :
    Numeral (plain digits point) := by
  have hpart : ∀ part : List Char, part ⊆ digits →
      Numeral (if part.isEmpty then ['0'] else part) := by
    intro part hsubset
    split
    · exact .zeros 1
    · exact h.mono hsubset
  refine .append (.append (hpart _ (List.take_subset _ _)) (.zeros _)) (.cons (by decide) ?_)
  exact .append (.zeros _) (hpart _ (List.drop_subset _ _))

theorem numeral_marked (format : DecimalFormat) {digits : List Char} (h : Numeral digits)
    (exponent : Int) : Numeral (format.marked digits exponent) := by
  refine .append (.append (h.mono (List.take_subset _ _)) ?_) (.cons (by decide) (.cons ?_ ?_))
  · split
    · simp [Numeral]
    · exact .cons (by decide) (h.mono (List.drop_subset _ _))
  · split <;> decide
  · exact .append (.zeros _) (.toDigits _)

theorem numeral_write (format : DecimalFormat) (d : Decimal) : Numeral (format.write d) := by
  have hdigits : Numeral (parts d).1 := by
    refine (Numeral.toDigits d.digits).mono fun c hc => ?_
    exact List.mem_reverse.mp ((List.dropWhile_sublist _).subset (List.mem_reverse.mp hc))
  simp only [write]
  split
  · exact numeral_plain hdigits _
  · exact format.numeral_marked hdigits _

end DecimalFormat

namespace Number

theorem numeral_toString (i : Int) : Numeral (toString i).toList := by
  rw [Int.toString_eq_repr, Int.repr_eq_if]
  split
  · simpa [Nat.repr] using Numeral.toDigits _
  · simpa [Nat.repr] using Numeral.cons (c := '-') (by decide) (.toDigits _)

theorem numeral_floatText (x : Float) : Numeral (floatText x).toList := by
  rw [floatText]
  split
  · simp [Numeral, numeralMarks]
  · simp [Numeral, numeralMarks]
  · simp [Numeral, numeralMarks]
  · rw [String.toList_append]
    refine .append ?_ ?_
    · split <;> simp [Numeral, numeralMarks]
    · split
      · simp [Numeral, numeralMarks]
      · rw [String.toList_ofList]
        exact DecimalFormat.numeral_write _ _

theorem numeral_text {n : Number} {t : String} (h : n.text = .ok t) : Numeral t.toList := by
  cases hx : n.toFloat with
  | error kind =>
      rw [text, hx] at h
      cases h
  | ok x =>
      cases hi : toInt? (float x) with
      | none =>
          simp only [text, hx, bind, Except.bind, hi] at h
          obtain rfl := Except.ok.inj h
          exact numeral_floatText x
      | some i =>
          simp only [text, hx, bind, Except.bind, hi] at h
          obtain rfl := Except.ok.inj h
          split
          · exact numeral_toString i
          · exact numeral_floatText x

def characters (n : Number) : List Char :=
  (n.text.toOption.getD "").toList

theorem text_ofDigits (digits : List Char) :
    (ofDigits digits).text = .ok (String.ofList (ofDigits digits).characters) := by
  obtain ⟨t, ht⟩ : ∃ t, (ofDigits digits).text = .ok t := text_float _
  rw [characters, ht]
  simp [Except.toOption]

theorem numeral_characters (digits : List Char) : Numeral (ofDigits digits).characters := by
  simpa using numeral_text (text_ofDigits digits)

theorem quote_cons_ne_characters (digits cs cs' : List Char) :
    '"' :: cs ≠ (ofDigits digits).characters ++ '\n' :: cs' := by
  intro h
  have hquote : '"' ∉ (ofDigits digits).characters :=
    (numeral_characters digits).notMem (by decide) (by decide)
  generalize (ofDigits digits).characters = characters at h hquote
  rcases characters with _ | ⟨c, characters⟩
  · cases h
  · exact List.ne_of_not_mem_cons hquote (List.cons.inj h).1

end Number

namespace Expr

mutual

/-- Whether two expressions have the same shape, with the same names and strings at their leaves,
and numbers that have the same text. -/
def Resembles : Expr → Expr → Prop
  | literal (.string s) _, literal (.string t) _ => s = t
  | literal (.number m) _, literal (.number n) _ => m.text = n.text
  | name x o _, name y p _ => x = y ∧ o = p
  | apply f xs _, apply g ys _ => f.Resembles g ∧ ResemblesAll xs ys
  | _, _ => False

def ResemblesAll : List Expr → List Expr → Prop
  | [], [] => True
  | x :: xs, y :: ys => x.Resembles y ∧ ResemblesAll xs ys
  | _, _ => False

end

mutual

theorem resembles_bare (a b : Expr) : a.bare.Resembles b.bare ↔ a.Resembles b := by
  cases a <;> cases b <;> simp only [bare, Resembles]
  case literal.literal v _ w _ => cases v <;> cases w <;> simp only [Resembles]
  case apply.apply f xs _ g ys _ => rw [resembles_bare f g, resemblesAll_bareAll xs ys]

theorem resemblesAll_bareAll (xs ys : List Expr) :
    ResemblesAll (bareAll xs) (bareAll ys) ↔ ResemblesAll xs ys := by
  cases xs <;> cases ys <;> simp only [bareAll, ResemblesAll]
  case cons.cons x xs y ys => rw [resembles_bare x y, resemblesAll_bareAll xs ys]

end

mutual

theorem entries_bare (heap : Heap) (depth : Nat) (e : Expr) :
    e.bare.entries heap depth = e.entries heap depth := by
  cases e with
  | literal v _ | name x o _ | foreign thing => simp only [bare, entries]
  | apply f es _ =>
      simp only [bare, entries]
      rw [entries_bare heap (depth + 2) f, entriesAll_bareAll heap (depth + 2) es]

theorem entriesAll_bareAll (heap : Heap) (depth : Nat) (es : List Expr) :
    entriesAll heap depth (bareAll es) = entriesAll heap depth es := by
  cases es with
  | nil => rfl
  | cons e es =>
      simp only [bareAll, entriesAll]
      rw [entries_bare heap depth e, entriesAll_bareAll heap depth es]

end

theorem outline_bare (heap : Heap) (indent : String) (e : Expr) :
    e.bare.outline heap indent = e.outline heap indent := by
  rw [outline, outline, entries_bare]

end Expr

/-- The blanks in front of a line that stands at a depth. -/
def margin (depth : Nat) : List Char :=
  List.replicate (depth * 2) ' '

/-- How many blanks a text starts with. -/
def indentation (cs : List Char) : Nat :=
  (cs.takeWhile (· = ' ')).length

theorem indentation_margin {c : Char} (hc : c ≠ ' ') (depth : Nat) (cs : List Char) :
    indentation (margin depth ++ c :: cs) = depth * 2 := by
  rw [indentation, margin, List.takeWhile_append_of_pos]
  · simp [hc]
  · intro d hd
    simpa using List.eq_of_mem_replicate hd

theorem toList_intercalate_empty (texts : List String) :
    ("".intercalate texts).toList = texts.flatMap String.toList := by
  have hflatten : ∀ parts : List (List Char), [].intercalate parts = parts.flatten := by
    intro parts
    induction parts with
    | nil => rfl
    | cons part parts ih => cases parts <;> simp [ih, List.intercalate_cons_cons]
  rw [String.toList_intercalate, String.toList_empty, hflatten, List.flatMap]

def lineOf (entry : Nat × String) : List Char :=
  (Expr.outlineLine "  " entry).toList

section Line

variable {depth : Nat} {label label' : String} {c c' : Char} {rest rest' : List Char}

theorem lineOf_append (depth : Nat) (label : String) (rest : List Char) :
    lineOf (depth, label) ++ rest = margin depth ++ (label.toList ++ '\n' :: rest) := by
  have hmargin : ("".intercalate (List.replicate depth "  ")).toList = margin depth := by
    rw [toList_intercalate_empty, List.flatMap_replicate, margin,
      ← List.flatten_replicate_replicate]
    rfl
  rw [lineOf, Expr.outlineLine, String.toList_append, String.toList_append, hmargin,
    List.append_assoc, List.append_assoc]
  rfl

theorem indentation_lineOf (hlabel : label.toList.head? = some c) (hc : c ≠ ' ') :
    indentation (lineOf (depth, label) ++ rest) = depth * 2 := by
  obtain ⟨cs, hcs⟩ := List.head?_eq_some_iff.mp hlabel
  rw [lineOf_append, hcs]
  exact indentation_margin hc depth _

theorem eq_of_lineOf (hlabel : label.toList.head? = some c)
    (hlabel' : label'.toList.head? = some c')
    (h : lineOf (depth, label) ++ rest = lineOf (depth, label') ++ rest') : c = c' := by
  rw [lineOf_append, lineOf_append, List.append_cancel_left_eq] at h
  have hhead := congrArg List.head? h
  rw [List.head?_append, List.head?_append, hlabel, hlabel'] at hhead
  exact Option.some.inj hhead

end Line

theorem Expr.outline_eq {heap : Heap} {e : Expr} {entries : List (Nat × String)}
    (h : e.entries heap 0 = .ok entries) :
    e.outline heap "  " = .ok (String.ofList (entries.flatMap lineOf)) := by
  have htext : "".intercalate (entries.map (outlineLine "  ")) =
      String.ofList (entries.flatMap lineOf) := by
    rw [← String.toList_inj, toList_intercalate_empty, String.toList_ofList, List.flatMap_map]
    rfl
  rw [outline, h, ← htext]
  rfl

namespace Atom

theorem IsWord.notMem_newline {name : List Char} (h : IsWord name) : '\n' ∉ name := by
  intro hmem
  exact absurd (h.chars _ hmem) (by decide)

def entry : Atom → String
  | string body => "literal\t" ++ ("\"" ++ String.ofList body ++ "\"")
  | number digits => "literal\t" ++ String.ofList (Number.ofDigits digits).characters
  | word name => "identifier\t" ++ String.ofList name

theorem entry_string (body rest : List Char) : (string body).entry.toList ++ rest =
    "literal\t".toList ++ '"' :: (body ++ '"' :: rest) := by
  simp only [entry, String.toList_append, String.toList_ofList, List.append_assoc]
  rfl

theorem entry_number (digits rest : List Char) : (number digits).entry.toList ++ rest =
    "literal\t".toList ++ ((Number.ofDigits digits).characters ++ rest) := by
  simp only [entry, String.toList_append, String.toList_ofList, List.append_assoc]

theorem entry_word (name rest : List Char) :
    (word name).entry.toList ++ rest = "identifier\t".toList ++ (name ++ rest) := by
  simp only [entry, String.toList_append, String.toList_ofList, List.append_assoc]

theorem head?_entry (atom : Atom) : ∃ c, atom.entry.toList.head? = some c ∧ c ∈ ['l', 'i'] := by
  cases atom with
  | string body | number digits =>
      refine ⟨'l', ?_, by decide⟩
      rw [entry, String.toList_append, List.head?_append]
      rfl
  | word name =>
      refine ⟨'i', ?_, by decide⟩
      rw [entry, String.toList_append, List.head?_append]
      rfl

end Atom

namespace Term

mutual

/-- The lines of the outline of a term that stands at a depth. -/
def lines (depth : Nat) : Term → List Char
  | leaf atom _ => lineOf (depth, atom.entry)
  | apply operator arguments =>
    lineOf (depth, "application") ++ (lineOf (depth + 1, "operator") ++
      (operator.lines (depth + 2) ++ (lineOf (depth + 1, "args") ++
        linesAll (depth + 2) arguments)))

def linesAll (depth : Nat) : List Term → List Char
  | [] => []
  | term :: terms => term.lines depth ++ linesAll depth terms

end

theorem entries_leaf (heap : Heap) (depth : Nat) {atom : Atom} (valid : atom.Valid) :
    (leaf atom valid).expr.entries heap depth = .ok [(depth, atom.entry)] := by
  cases atom with
  | string body =>
      rw [expr, Expr.entries, Heap.display, Heap.displayBelow, Atom.entry]
      rfl
  | number digits =>
      rw [expr, Expr.entries, Heap.display, Heap.displayBelow, Heap.displayNumber,
        Number.text_ofDigits, Atom.entry]
      rfl
  | word name => rw [expr, Expr.entries, Atom.entry]

mutual

theorem entries_expr (heap : Heap) (depth : Nat) : ∀ term : Term, ∃ entries,
    term.expr.entries heap depth = .ok entries ∧ entries.flatMap lineOf = term.lines depth
  | leaf atom valid => by
      refine ⟨_, entries_leaf heap depth valid, ?_⟩
      rw [List.flatMap_singleton, lines]
  | apply operator arguments => by
      obtain ⟨first, hfirst, hlines⟩ := entries_expr heap (depth + 2) operator
      obtain ⟨others, hothers, hlinesAll⟩ := entriesAll_exprAll heap (depth + 2) arguments
      refine ⟨[(depth, "application"), (depth + 1, "operator")] ++ first ++
        (depth + 1, "args") :: others, ?_, ?_⟩
      · rw [expr, Expr.entries, hfirst, hothers]
        rfl
      · simp [lines, hlines, hlinesAll]

theorem entriesAll_exprAll (heap : Heap) (depth : Nat) : ∀ terms : List Term, ∃ entries,
    Expr.entriesAll heap depth (exprAll terms) = .ok entries ∧
      entries.flatMap lineOf = linesAll depth terms
  | [] => ⟨[], rfl, rfl⟩
  | term :: terms => by
      obtain ⟨first, hfirst, hlines⟩ := entries_expr heap depth term
      obtain ⟨others, hothers, hlinesAll⟩ := entriesAll_exprAll heap depth terms
      refine ⟨first ++ others, ?_, ?_⟩
      · rw [exprAll, Expr.entriesAll, hfirst, hothers]
        rfl
      · rw [List.flatMap_append, hlines, hlinesAll, linesAll]

end

section Reading

variable {depth : Nat} {rest rest' : List Char}

theorem indentation_lines (depth : Nat) (term : Term) (rest : List Char) :
    indentation (term.lines depth ++ rest) = depth * 2 := by
  cases term with
  | leaf atom valid =>
      obtain ⟨c, hhead, hc⟩ := atom.head?_entry
      rw [lines]
      refine indentation_lineOf hhead ?_
      rintro rfl
      exact absurd hc (by decide)
  | apply operator arguments =>
      rw [lines, List.append_assoc]
      exact indentation_lineOf (c := 'a') rfl (by decide)

theorem indentation_linesAll (hrest : indentation rest < depth * 2) (terms : List Term) :
    indentation (linesAll depth terms ++ rest) < (depth + 1) * 2 := by
  rcases terms with _ | ⟨term, terms⟩
  · rw [linesAll, List.nil_append]
    omega
  · rw [linesAll, List.append_assoc, indentation_lines]
    omega

theorem leaf_lines_ne_apply_lines {atom : Atom} (valid : atom.Valid) (f : Term) (xs : List Term) :
    (leaf atom valid).lines depth ++ rest ≠ (apply f xs).lines depth ++ rest' := by
  intro h
  obtain ⟨c, hhead, hc⟩ := atom.head?_entry
  rw [lines, lines, List.append_assoc] at h
  have happlication : "application".toList.head? = some 'a' := rfl
  obtain rfl := eq_of_lineOf hhead happlication h
  exact absurd hc (by decide)

theorem resembles_of_entry {a b : Atom} (ha : a.Valid) (hb : b.Valid)
    (h : a.entry.toList ++ '\n' :: rest = b.entry.toList ++ '\n' :: rest') :
    (leaf a ha).expr.Resembles (leaf b hb).expr ∧ rest = rest' := by
  cases a with
  | string body =>
      cases b with
      | string body' =>
          rw [Atom.entry_string, Atom.entry_string, List.append_cancel_left_eq] at h
          obtain ⟨rfl, htail⟩ := eq_of_append_cons_eq ha hb (List.cons.inj h).2
          exact ⟨by simp only [expr, Expr.Resembles], (List.cons.inj htail).2⟩
      | number digits' =>
          rw [Atom.entry_string, Atom.entry_number, List.append_cancel_left_eq] at h
          exact absurd h (Number.quote_cons_ne_characters _ _ _)
      | word name' =>
          rw [Atom.entry_string, Atom.entry_word] at h
          cases h
  | number digits =>
      cases b with
      | string body' =>
          rw [Atom.entry_number, Atom.entry_string, List.append_cancel_left_eq] at h
          exact absurd h.symm (Number.quote_cons_ne_characters _ _ _)
      | number digits' =>
          rw [Atom.entry_number, Atom.entry_number, List.append_cancel_left_eq] at h
          obtain ⟨hcharacters, hrest⟩ := eq_of_append_cons_eq
            ((Number.numeral_characters digits).notMem (by decide) (by decide))
            ((Number.numeral_characters digits').notMem (by decide) (by decide)) h
          refine ⟨?_, hrest⟩
          rw [expr, expr, Expr.Resembles, Number.text_ofDigits, Number.text_ofDigits, hcharacters]
      | word name' =>
          rw [Atom.entry_number, Atom.entry_word] at h
          cases h
  | word name =>
      cases b with
      | string body' =>
          rw [Atom.entry_word, Atom.entry_string] at h
          cases h
      | number digits' =>
          rw [Atom.entry_word, Atom.entry_number] at h
          cases h
      | word name' =>
          rw [Atom.entry_word, Atom.entry_word, List.append_cancel_left_eq] at h
          obtain ⟨rfl, hrest⟩ := eq_of_append_cons_eq (Atom.IsWord.notMem_newline ha)
            (Atom.IsWord.notMem_newline hb) h
          exact ⟨by simp only [expr, Expr.Resembles, and_self], hrest⟩

end Reading

mutual

/-- The lines of a term can be told from what follows them, if that stands less deep than a part
of the term would. -/
theorem resembles_of_lines : ∀ (a b : Term) {depth : Nat} {rest rest' : List Char},
    indentation rest < (depth + 1) * 2 → indentation rest' < (depth + 1) * 2 →
    a.lines depth ++ rest = b.lines depth ++ rest' → a.expr.Resembles b.expr ∧ rest = rest'
  | leaf a ha, leaf b hb, _, _, _, _, _, h => by
      rw [lines, lines, lineOf_append, lineOf_append, List.append_cancel_left_eq] at h
      exact resembles_of_entry ha hb h
  | leaf a ha, apply g ys, _, _, _, _, _, h => absurd h (leaf_lines_ne_apply_lines ha g ys)
  | apply f xs, leaf b hb, _, _, _, _, _, h => absurd h.symm (leaf_lines_ne_apply_lines hb f xs)
  | apply f xs, apply g ys, depth, rest, rest', hrest, hrest', h => by
      -- The operator ends before the line above the arguments, the arguments before what follows.
      have hargs : ∀ cs, indentation (lineOf (depth + 1, "args") ++ cs) < (depth + 2 + 1) * 2 := by
        intro cs
        rw [indentation_lineOf (c := 'a') rfl (by decide)]
        omega
      simp only [lines, List.append_assoc, List.append_cancel_left_eq] at h
      obtain ⟨hoperator, htail⟩ := resembles_of_lines f g (hargs _) (hargs _) h
      rw [List.append_cancel_left_eq] at htail
      obtain ⟨harguments, heq⟩ :=
        resemblesAll_of_linesAll xs ys (by omega) (by omega) htail
      refine ⟨?_, heq⟩
      rw [expr, expr, Expr.Resembles]
      exact ⟨hoperator, harguments⟩

theorem resemblesAll_of_linesAll : ∀ (xs ys : List Term) {depth : Nat} {rest rest' : List Char},
    indentation rest < depth * 2 → indentation rest' < depth * 2 →
    linesAll depth xs ++ rest = linesAll depth ys ++ rest' →
    Expr.ResemblesAll (exprAll xs) (exprAll ys) ∧ rest = rest'
  | [], [], _, _, _, _, _, h => ⟨by simp only [exprAll, Expr.ResemblesAll], h⟩
  | [], y :: ys, depth, rest, rest', hrest, _, h => by
      rw [linesAll, linesAll, List.nil_append, List.append_assoc] at h
      rw [h, indentation_lines] at hrest
      omega
  | x :: xs, [], depth, rest, rest', _, hrest', h => by
      rw [linesAll, linesAll, List.nil_append, List.append_assoc] at h
      rw [← h, indentation_lines] at hrest'
      omega
  | x :: xs, y :: ys, depth, rest, rest', hrest, hrest', h => by
      rw [linesAll, linesAll, List.append_assoc, List.append_assoc] at h
      obtain ⟨hfirst, htail⟩ := resembles_of_lines x y (indentation_linesAll hrest xs)
        (indentation_linesAll hrest' ys) h
      obtain ⟨hothers, heq⟩ := resemblesAll_of_linesAll xs ys hrest hrest' htail
      refine ⟨?_, heq⟩
      rw [exprAll, exprAll, Expr.ResemblesAll]
      exact ⟨hfirst, hothers⟩

end

theorem entry_of_resembles {a b : Atom} (ha : a.Valid) (hb : b.Valid)
    (h : (leaf a ha).expr.Resembles (leaf b hb).expr) : a.entry = b.entry := by
  cases a <;> cases b <;> simp only [expr, Expr.Resembles] at h
  case string.string => rw [Atom.entry, Atom.entry, h]
  case number.number => rw [Atom.entry, Atom.entry, Number.characters, Number.characters, h]
  case word.word => rw [Atom.entry, Atom.entry, h.1]

mutual

theorem lines_of_resembles (depth : Nat) :
    ∀ a b : Term, a.expr.Resembles b.expr → a.lines depth = b.lines depth
  | leaf a ha, leaf b hb, h => by
      rw [lines, lines, entry_of_resembles ha hb h]
  | leaf a _, apply _ _, h | apply _ _, leaf a _, h => by
      cases a <;> simp only [expr, Expr.Resembles] at h
  | apply f xs, apply g ys, h => by
      rw [expr, expr, Expr.Resembles] at h
      rw [lines, lines, lines_of_resembles (depth + 2) f g h.1,
        linesAll_of_resemblesAll (depth + 2) xs ys h.2]

theorem linesAll_of_resemblesAll (depth : Nat) : ∀ xs ys : List Term,
    Expr.ResemblesAll (exprAll xs) (exprAll ys) → linesAll depth xs = linesAll depth ys
  | [], [], _ => rfl
  | [], _ :: _, h | _ :: _, [], h => by simp only [exprAll, Expr.ResemblesAll] at h
  | x :: xs, y :: ys, h => by
      rw [exprAll, exprAll, Expr.ResemblesAll] at h
      rw [linesAll, linesAll, lines_of_resembles depth x y h.1,
        linesAll_of_resemblesAll depth xs ys h.2]

end

end Term

namespace Expr

theorem outline_of_term (heap : Heap) {e : Expr} {term : Term} (h : e.bare = term.expr) :
    e.outline heap "  " = .ok (String.ofList (term.lines 0)) := by
  obtain ⟨entries, hentries, hlines⟩ := term.entries_expr heap 0
  rw [← outline_bare, h, outline_eq hentries, hlines]

/-- Outlines are faithful. Every program that can be read has an outline, with two blanks for each
level of depth, and two programs have the same outline exactly if they have the same shape, the
same names and strings at corresponding leaves, and there numbers with the same text. -/
theorem outline_eq_iff_resembles {limit limit' : Nat} {source source' : String} {a b : Expr}
    (ha : parse limit source = .ok a) (hb : parse limit' source' = .ok b) (heap heap' : Heap) :
    ∃ text text', a.outline heap "  " = .ok text ∧ b.outline heap' "  " = .ok text' ∧
      (text = text' ↔ a.Resembles b) := by
  obtain ⟨s, hs⟩ := exists_term_of_parse ha
  obtain ⟨t, ht⟩ := exists_term_of_parse hb
  refine ⟨_, _, outline_of_term heap hs, outline_of_term heap' ht, ?_⟩
  rw [String.ofList_inj, ← resembles_bare, hs, ht]
  constructor
  · intro h
    have hnil : indentation [] < (0 + 1) * 2 := by decide
    refine (s.resembles_of_lines t hnil hnil ?_).1
    rw [h]
  · exact s.lines_of_resembles 0 t

/-- A call with a string that looks like a line end and a further argument. -/
def lookalike : String := "f(\"a\n    identifier\tx\", 07)"

/-- The same call with other layout, and with its number written without a zero in front. -/
def respacedLookalike : String := "f # 7\n (\"a\n    identifier\tx\" , 7)"

theorem outline_eq_iff_resembles_lookalike :
    ∃ a b, parse 9 lookalike = .ok a ∧ parse 9 respacedLookalike = .ok b ∧
      a.outline .empty "  " = b.outline .empty "  " ∧ a.Resembles b := by
  have hsame : (match parse 9 lookalike, parse 9 respacedLookalike with
      | .ok a, .ok b => decide ((a.outline .empty "  ").toOption = (b.outline .empty "  ").toOption)
      | _, _ => false) = true := by decide +kernel
  split at hsame
  · rename_i a b ha hb
    obtain ⟨text, text', htext, htext', hiff⟩ := outline_eq_iff_resembles ha hb .empty .empty
    have heq : text = text' := by simpa [htext, htext', Except.toOption] using hsame
    exact ⟨a, b, ha, hb, by rw [htext, htext', heq], hiff.mp heq⟩
  · cases hsame

end Expr

end Egg
