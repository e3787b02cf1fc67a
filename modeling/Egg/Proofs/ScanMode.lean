import Egg.Proofs.MoreInput
import Egg.Proofs.WrittenToken

/-!
Reading a text character by character. What is left open at the end of a text can be told without
looking ahead: all that has to be kept in mind is whether one is between words, in a word, in a
comment or in a string. The tokens of the text leave open what this leaves open.
-/

namespace Egg

theorem Atom.eq_takeWhile_of_read? {cs name : List Char} (h : read? cs = some (.word name)) :
    name = cs.takeWhile isNameChar := by
  simp only [read?, Option.or_eq_some_iff, Option.map_eq_some_iff] at h
  rcases h with ⟨_, _, h⟩ | ⟨_, ⟨_, _, h⟩ | ⟨_, _, h, h'⟩⟩
  · cases h
  · cases h
  · cases h'
    rw [word?] at h
    split at h
    · cases h
    · exact (Option.some.inj h).symm

theorem Atom.IsWord.split {name : List Char} (h : IsWord name) :
    ∃ a more, name = name.takeWhile Char.isDigit ++ a :: more ∧ isNameChar a = true ∧ a ≠ '#' ∧
      a.isDigit = false := by
  cases hdrop : name.dropWhile Char.isDigit with
  | nil =>
      have hall : name.takeWhile Char.isDigit = name := by
        simpa [hdrop] using List.takeWhile_append_dropWhile (p := Char.isDigit) (l := name)
      obtain ⟨c, hc, -⟩ := h.unnumbered name [] (List.append_nil name).symm h.nonempty
        (List.takeWhile_eq_self_iff.mp hall)
      cases hc
  | cons a more =>
      have hsplit : name = name.takeWhile Char.isDigit ++ a :: more := by
        rw [← hdrop, List.takeWhile_append_dropWhile]
      have hdigit := List.head?_dropWhile_not Char.isDigit name
      rw [hdrop] at hdigit
      refine ⟨a, more, hsplit, h.chars a (by rw [hsplit]; simp), ?_, by simpa using hdigit⟩
      rintro rfl
      -- a comment sign stands neither first nor behind digits
      cases hdigits : name.takeWhile Char.isDigit with
      | nil =>
          rw [hdigits] at hsplit
          exact h.uncommented (by rw [hsplit]; rfl)
      | cons d digits =>
          obtain ⟨c, hc, hword⟩ := h.unnumbered _ _ hsplit (by simp [hdigits])
            fun d hd => List.mem_takeWhile_imp hd
          cases hc
          cases hword

namespace Token

/-- Where a character stands. Behind a number one is between words. -/
inductive Mode where
  | gap
  | word
  | comment
  | string
deriving DecidableEq, Repr

namespace Mode

/-- The mode behind a character. Only between words does a comment start. -/
def next : Mode → Char → Mode
  | comment, c => if c = '\n' then gap else comment
  | string, c => if c = '"' then gap else string
  | word, c => if c = '"' then string else if isNameChar c then word else gap
  | gap, c =>
    if c = '"' then string
    else if !isNameChar c || c.isDigit then gap
    else if c = '#' then comment
    else word

/-- What a character adds to the number of open parentheses. -/
def weight : Mode → Char → Int
  | comment, _ | string, _ => 0
  | gap, c | word, c => if c = '(' then 1 else if c = ')' then -1 else 0

/-- What a text leaves open at its end: how many parentheses, and whether a string. -/
def leaves : Mode → List Char → Int × Bool
  | mode, [] => (0, mode = string)
  | mode, c :: cs => (mode.weight c + ((mode.next c).leaves cs).1, ((mode.next c).leaves cs).2)

theorem leaves_cons_of_weight {mode : Mode} {c : Char} (h : mode.weight c = 0) (cs : List Char) :
    mode.leaves (c :: cs) = (mode.next c).leaves cs := by
  rw [leaves, h, Int.zero_add]

theorem leaves_append_of_stays {mode : Mode} {text : List Char}
    (h : ∀ c ∈ text, mode.next c = mode ∧ mode.weight c = 0) (rest : List Char) :
    mode.leaves (text ++ rest) = mode.leaves rest := by
  induction text with
  | nil => rfl
  | cons c text ih =>
      obtain ⟨⟨hnext, hweight⟩, htext⟩ := List.forall_mem_cons.mp h
      rw [List.cons_append, leaves_cons_of_weight hweight, hnext, ih htext]

section Pieces

variable {rest : List Char}

theorem weight_of_isNameChar {c : Char} (h : isNameChar c = true) (mode : Mode) :
    mode.weight c = 0 := by
  have hopen : c ≠ '(' := by
    rintro rfl
    cases h
  have hclose : c ≠ ')' := by
    rintro rfl
    cases h
  cases mode <;> simp [weight, hopen, hclose]

theorem ne_quote_of_isNameChar {c : Char} (h : isNameChar c = true) : c ≠ '"' := by
  rintro rfl
  cases h

theorem gap_leaves_blanks {text : List Char} (h : ∀ c ∈ text, Text.isBlank c = true) :
    gap.leaves (text ++ rest) = gap.leaves rest := by
  refine leaves_append_of_stays (fun c hc => ?_) rest
  have hblank := h c hc
  have hname : isNameChar c = false := by simp [isNameChar, hblank]
  have hne : ∀ a, Text.isBlank a = false → c ≠ a := by
    rintro a ha rfl
    rw [ha] at hblank
    cases hblank
  simp [next, weight, hname, hne '"' rfl, hne '(' rfl, hne ')' rfl]

theorem gap_leaves_comment (cs : List Char) :
    gap.leaves ('#' :: cs) = gap.leaves (cs.dropWhile (· ≠ '\n')) := by
  have hstays : comment.leaves (cs.takeWhile (· ≠ '\n') ++ cs.dropWhile (· ≠ '\n')) =
      comment.leaves (cs.dropWhile (· ≠ '\n')) := by
    refine leaves_append_of_stays (fun c hc => ?_) _
    have hline := List.mem_takeWhile_imp hc
    simp [next, weight, of_decide_eq_true hline]
  rw [List.takeWhile_append_dropWhile] at hstays
  rw [leaves_cons_of_weight rfl, show gap.next '#' = comment from rfl, hstays]
  -- a comment ends where its line does, and the end of a line leads into a gap from both modes
  cases hdrop : cs.dropWhile (· ≠ '\n') with
  | nil => rfl
  | cons c ds =>
      have hhead := List.head?_dropWhile_not (fun c => decide (c ≠ '\n')) cs
      rw [hdrop] at hhead
      obtain rfl : c = '\n' := by simpa using hhead
      rfl

theorem gap_leaves_string {body : List Char} (h : '"' ∉ body) :
    gap.leaves ('"' :: (body ++ rest)) = string.leaves rest := by
  rw [leaves_cons_of_weight rfl]
  refine leaves_append_of_stays (fun c hc => ?_) rest
  have hquote : c ≠ '"' := fun heq => h (heq ▸ hc)
  simp [next, weight, hquote]

theorem gap_leaves_digits {digits : List Char} (h : ∀ d ∈ digits, d.isDigit = true) :
    gap.leaves (digits ++ rest) = gap.leaves rest := by
  refine leaves_append_of_stays (fun d hd => ?_) rest
  have hdigit := h d hd
  have hname := isNameChar_of_isWordChar (isWordChar_of_isDigit hdigit)
  simp [next, weight_of_isNameChar hname, ne_quote_of_isNameChar hname, hdigit]

theorem word_leaves_of_boundary (hrest : Atom.Boundary rest) :
    word.leaves rest = gap.leaves rest := by
  rcases rest with _ | ⟨c, rest⟩
  · rfl
  · have hname : isNameChar c = false := hrest c rfl
    have hnext : word.next c = gap.next c := by simp [next, hname]
    rw [leaves, leaves, hnext]
    rfl

theorem gap_leaves_word {name : List Char} (h : Atom.IsWord name) :
    gap.leaves (name ++ rest) = word.leaves rest := by
  obtain ⟨a, more, hsplit, ha, hcomment, hdigit⟩ := h.split
  have hmore : ∀ c ∈ more, word.next c = word ∧ word.weight c = 0 := by
    intro c hc
    have hname := h.chars c (by rw [hsplit]; simp [hc])
    exact ⟨by simp [next, hname, ne_quote_of_isNameChar hname], weight_of_isNameChar hname _⟩
  have hnext : gap.next a = word := by
    simp [next, ne_quote_of_isNameChar ha, ha, hdigit, hcomment]
  rw [hsplit, List.append_assoc, gap_leaves_digits fun d hd => List.mem_takeWhile_imp hd,
    List.cons_append, leaves_cons_of_weight (weight_of_isNameChar ha _), hnext,
    leaves_append_of_stays hmore]

end Pieces

theorem gap_leaves_atom {a : Char} {cs rest : List Char} {atom : Atom} (hcomment : a ≠ '#')
    (hread : Atom.read? (a :: cs) = some atom) (hsplit : a :: cs = atom.text ++ rest) :
    gap.leaves (a :: cs) = gap.leaves rest := by
  have hvalid := Atom.valid_of_read? hcomment hread
  rw [hsplit] at hread ⊢
  cases atom with
  | string body =>
      have htext : (Atom.string body).text ++ rest = '"' :: (body ++ '"' :: rest) := by
        simp [Atom.text]
      rw [htext, gap_leaves_string hvalid, leaves_cons_of_weight rfl]
      rfl
  | number digits => exact gap_leaves_digits hvalid.2
  | word name =>
      have hboundary : Atom.Boundary rest := by
        have hname := Atom.eq_takeWhile_of_read? hread
        have hdrop : name ++ (name ++ rest).dropWhile isNameChar = name ++ rest :=
          (congrArg (· ++ (name ++ rest).dropWhile isNameChar) hname).trans
            List.takeWhile_append_dropWhile
        rw [← List.append_cancel_left hdrop]
        exact Atom.boundary_dropWhile _
      rw [Atom.text, gap_leaves_word hvalid, word_leaves_of_boundary hboundary]

theorem gap_leaves_lexeme {a : Char} {cs rest : List Char} (h : a :: cs = (lexeme a cs).2 ++ rest) :
    gap.leaves (a :: cs) = ((lexeme a cs).1.weight + (gap.leaves rest).1,
      decide ((lexeme a cs).1 = .unclosed) || (gap.leaves rest).2) := by
  cases hlayout : (lexeme a cs).1.isLayout with
  | true =>
      rcases lexeme_layout_cases hlayout with ⟨hblank, hlex⟩ | ⟨-, rfl, hlex⟩
      · rw [hlex] at h ⊢
        have hall : ∀ c ∈ a :: cs.takeWhile Text.isBlank, Text.isBlank c = true :=
          List.forall_mem_cons.mpr ⟨hblank, fun c hc => List.mem_takeWhile_imp hc⟩
        rw [h, gap_leaves_blanks hall]
        simp [Kind.weight]
      · rw [hlex] at h ⊢
        have hrest : cs.takeWhile (· ≠ '\n') ++ cs.dropWhile (· ≠ '\n') =
            cs.takeWhile (· ≠ '\n') ++ rest :=
          List.takeWhile_append_dropWhile.trans (List.cons.inj h).2
        rw [gap_leaves_comment, List.append_cancel_left hrest]
        simp [Kind.weight]
  | false =>
      cases hmark : Kind.ofMark? a with
      | some kind =>
          rw [lexeme_of_mark hmark] at h ⊢
          obtain rfl : cs = rest := (List.cons.inj h).2
          rcases Kind.ofMark?_cases hmark with ⟨rfl, rfl⟩ | ⟨rfl, rfl⟩ | ⟨rfl, rfl⟩ <;> rfl
      | none =>
          have hlex := lexeme_of_not_mark hlayout hmark
          cases hread : Atom.read? (a :: cs) with
          | some atom =>
              rw [hread] at hlex
              rw [hlex] at h ⊢
              rw [gap_leaves_atom (lexeme_not_layout hlayout).2 hread h]
              cases atom <;> simp [Kind.ofAtom, Kind.weight]
          | none =>
              rw [hread] at hlex
              obtain ⟨-, rfl, hquote⟩ := lexeme_unclosed
                (show (lexeme a cs).1 = .unclosed by rw [hlex])
              rw [hlex] at h ⊢
              obtain rfl : rest = [] := by simpa using h
              have hopen : gap.leaves ('"' :: (cs ++ [])) = string.leaves [] :=
                gap_leaves_string hquote
              rw [List.append_nil] at hopen
              rw [hopen]
              rfl

end Mode

/-- The tokens of a text leave open what reading it character by character leaves open. -/
theorem leaves_scanFrom (p : Position) (cs : List Char) :
    Mode.gap.leaves cs = (depth (scanFrom true p cs), hasUnclosed (scanFrom true p cs)) := by
  induction hn : cs.length using Nat.strong_induction_on generalizing p cs with
  | h n ih =>
      subst hn
      rcases cs with _ | ⟨a, cs⟩
      · simp [scanFrom, Mode.leaves, hasUnclosed]
      · obtain ⟨rest, hrest, hne, hscan⟩ := scanFrom_cons p a cs
        have hlt : rest.length < (a :: cs).length := by
          have hpos := List.length_pos_iff.mpr hne
          rw [hrest, List.length_append]
          omega
        have hsplit : a :: cs = (lexeme a cs).2 ++ rest := by simpa [first] using hrest
        rw [Mode.gap_leaves_lexeme hsplit, hscan, ih _ hlt _ rest rfl, depth_cons]
        rfl

theorem depth_scan (source : String) : depth (scan source) = depth (scanAll source) := by
  rw [scan_eq_filter, depth_eq_sum, depth_eq_sum]
  induction scanAll source with
  | nil => rfl
  | cons t ts ih =>
      cases hlayout : t.kind.isLayout with
      | false => simp [hlayout, ih]
      | true =>
          have hweight : t.kind.weight = 0 := by
            cases hkind : t.kind <;> simp_all [Kind.isLayout, Kind.weight]
          simp [hlayout, hweight, ih]

theorem hasUnclosed_scan (source : String) :
    hasUnclosed (scan source) = hasUnclosed (scanAll source) := by
  rw [scan_eq_filter, hasUnclosed, hasUnclosed, List.any_filter]
  refine congrArg (List.any _) (funext fun t => ?_)
  cases t.kind <;> rfl

theorem needsMore_eq (source : String) :
    needsMore source = (decide (0 < (Mode.gap.leaves source.toList).1) ||
      (Mode.gap.leaves source.toList).2) := by
  rw [leaves_scanFrom .start, needsMore, depth_scan, hasUnclosed_scan]
  rfl

end Token

end Egg
