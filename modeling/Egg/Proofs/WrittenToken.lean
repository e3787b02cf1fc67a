import Egg.Proofs.Continuation

namespace Egg

theorem isWordChar_of_isDigit {c : Char} (h : c.isDigit = true) : isWordChar c = true := by
  simp [isWordChar, Char.isAlphanum, h]

theorem isNameChar_of_isWordChar {c : Char} (h : isWordChar c = true) : isNameChar c = true := by
  have hrange : (48 ≤ c.toNat ∧ c.toNat ≤ 57) ∨ (65 ≤ c.toNat ∧ c.toNat ≤ 122) := by
    change ((decide ('A'.val ≤ c.val ∧ c.val ≤ 'Z'.val) ||
      (decide ('a'.val ≤ c.val) && decide (c.val ≤ 'z'.val))) ||
      (decide ('0'.val ≤ c.val) && decide (c.val ≤ '9'.val)) || decide (c = '_')) = true at h
    simp only [Bool.or_eq_true, Bool.and_eq_true, decide_eq_true_eq, UInt32.le_iff_toNat_le] at h
    change (((65 ≤ c.toNat ∧ c.toNat ≤ 90) ∨ (97 ≤ c.toNat ∧ c.toNat ≤ 122)) ∨
      (48 ≤ c.toNat ∧ c.toNat ≤ 57)) ∨ c = '_' at h
    rcases h with ((h | h) | h) | rfl
    · omega
    · omega
    · omega
    · exact .inr (by decide)
  have hblank : Text.isBlank c = false := by
    simp only [Text.isBlank, Text.inRanges, Text.blankRanges, List.any_cons, List.any_nil,
      Bool.or_false, Bool.or_eq_false_iff, Bool.and_eq_false_iff, decide_eq_false_iff_not]
    omega
  have hne : ∀ d : Char, d.toNat < 48 → c ≠ d := by
    rintro d hd rfl
    omega
  simp [isNameChar, hblank, hne '(' (by decide), hne ')' (by decide), hne ',' (by decide),
    hne '"' (by decide)]

namespace Atom

/-- What may stand behind an atom for it to end there: nothing, or a character that no word holds.
-/
def Boundary (rest : List Char) : Prop :=
  ∀ c ∈ rest.head?, isNameChar c = false

theorem boundary_nil : Boundary [] := by
  simp [Boundary]

theorem boundary_cons {c : Char} (h : isNameChar c = false) (cs : List Char) :
    Boundary (c :: cs) := by
  simp [Boundary, h]

theorem boundary_dropWhile (cs : List Char) : Boundary (cs.dropWhile isNameChar) := by
  intro c hc
  have hne := List.head?_dropWhile_not isNameChar cs
  rw [Option.mem_def.mp hc] at hne
  simpa using hne

section Boundary

variable {rest : List Char} (hrest : Boundary rest)

include hrest

theorem takeWhile_append_of_boundary {p : Char → Bool} (hp : ∀ c, p c = true → isNameChar c = true)
    (cs : List Char) : (cs ++ rest).takeWhile p = cs.takeWhile p := by
  have hnone : rest.takeWhile p = [] := by
    rcases rest with _ | ⟨c, rest⟩
    · rfl
    · have hc : p c = false :=
        Bool.eq_false_iff.mpr fun hc => absurd (hp c hc) (by simp [hrest c rfl])
      simp [hc]
  induction cs with
  | nil => exact hnone
  | cons c cs ih => rw [List.cons_append, List.takeWhile_cons, List.takeWhile_cons, ih]

theorem number?_append_of_boundary (cs : List Char) : number? (cs ++ rest) = number? cs := by
  by_cases hall : cs.takeWhile Char.isDigit = cs
  · have hdigits := takeWhile_append_of_boundary hrest
      (fun c hc => isNameChar_of_isWordChar (isWordChar_of_isDigit hc)) cs
    have hword : rest.head?.any isWordChar = false := by
      rcases rest with _ | ⟨c, rest⟩
      · rfl
      · exact Bool.eq_false_iff.mpr fun hc =>
          absurd (isNameChar_of_isWordChar hc) (by simp [hrest c rfl])
    simp [number?, hdigits, hall, hword]
  · exact number?_append_of_ne hall rest

theorem word?_append_of_boundary (cs : List Char) : word? (cs ++ rest) = word? cs := by
  simp only [word?, takeWhile_append_of_boundary hrest fun _ hc => hc]

end Boundary

theorem number?_eq_none_iff {cs : List Char} :
    number? cs = none ↔ ∀ digits rest, cs = digits ++ rest → digits ≠ [] →
      (∀ d ∈ digits, d.isDigit = true) → ∃ c ∈ rest.head?, isWordChar c = true := by
  have hsplit : cs.takeWhile Char.isDigit ++ cs.drop (cs.takeWhile Char.isDigit).length = cs :=
    List.prefix_iff_eq_append.mp (List.takeWhile_prefix _)
  constructor
  · rintro h digits rest rfl hdigits hall
    rcases rest with _ | ⟨c, rest⟩
    · rw [List.append_nil, number?_eq_self hdigits (List.takeWhile_eq_self_iff.mpr hall)] at h
      cases h
    · refine ⟨c, rfl, ?_⟩
      by_cases hc : c.isDigit = true
      · exact isWordChar_of_isDigit hc
      · have htake : (digits ++ c :: rest).takeWhile Char.isDigit = digits := by
          rw [List.takeWhile_append_of_pos hall]
          simp [hc]
        simpa [number?, htake, hdigits] using h
  · intro h
    simp only [number?]
    split
    · rfl
    · rename_i hsome
      simp only [Bool.or_eq_true, not_or, List.isEmpty_iff] at hsome
      obtain ⟨c, hc, hword⟩ := h _ _ hsplit.symm hsome.1 fun d hd => List.mem_takeWhile_imp hd
      rw [Option.mem_def.mp hc] at hsome
      exact absurd hword hsome.2

/-- The names that can be written as bare words. Nothing may stand in them that ends a word, they
must not start a comment, and where they start with digits, a letter, a digit or an underscore
must follow. -/
structure IsWord (name : List Char) : Prop where
  nonempty : name ≠ []
  chars : ∀ c ∈ name, isNameChar c = true
  uncommented : name.head? ≠ some '#'
  unnumbered : ∀ digits rest, name = digits ++ rest → digits ≠ [] →
    (∀ d ∈ digits, d.isDigit = true) → ∃ c ∈ rest.head?, isWordChar c = true

theorem isWord_iff {name : List Char} :
    IsWord name ↔ name ≠ [] ∧ name.all isNameChar = true ∧ name.head? ≠ some '#' ∧
      number? name = none := by
  rw [List.all_eq_true]
  constructor
  · intro h
    exact ⟨h.nonempty, h.chars, h.uncommented, number?_eq_none_iff.mpr h.unnumbered⟩
  · rintro ⟨hne, hchars, hcomment, hnumber⟩
    exact ⟨hne, hchars, hcomment, number?_eq_none_iff.mp hnumber⟩

instance (name : List Char) : Decidable (IsWord name) :=
  decidable_of_iff _ isWord_iff.symm

example : IsWord ['1', '2', 'a'] ∧ ¬ IsWord ['1', '2', '-', '3'] ∧ ¬ IsWord ['1', '2', 'é'] := by
  decide

/-- An atom that can be written: a string without a quote inside, a run of digits, or a word. -/
def Valid : Atom → Prop
  | string body => '"' ∉ body
  | number digits => digits ≠ [] ∧ ∀ d ∈ digits, d.isDigit = true
  | word name => IsWord name

instance : DecidablePred Valid
  | string body => inferInstanceAs (Decidable ('"' ∉ body))
  | number digits =>
      decidable_of_iff (digits ≠ [] ∧ digits.all Char.isDigit = true)
        (by rw [List.all_eq_true]; rfl)
  | word name => inferInstanceAs (Decidable (IsWord name))

theorem isWord_takeWhile {a : Char} {cs : List Char} (hcomment : a ≠ '#')
    (hnumber : number? (a :: cs) = none) (hname : (a :: cs).takeWhile isNameChar ≠ []) :
    IsWord ((a :: cs).takeWhile isNameChar) where
  nonempty := hname
  chars c hc := List.mem_takeWhile_imp hc
  uncommented := by
    rw [List.takeWhile_cons] at hname ⊢
    split
    · simpa using hcomment
    · simp
  unnumbered := by
    rw [← number?_eq_none_iff]
    rw [← List.takeWhile_append_dropWhile (p := isNameChar) (l := a :: cs),
      number?_append_of_boundary (boundary_dropWhile _)] at hnumber
    exact hnumber

theorem valid_of_read? {a : Char} {cs : List Char} {atom : Atom} (hcomment : a ≠ '#')
    (h : read? (a :: cs) = some atom) : atom.Valid := by
  by_cases ha : a = '"'
  · subst ha
    rw [read?_quote, string?] at h
    split at h
    · cases h
      intro hquote
      simpa using List.mem_takeWhile_imp hquote
    · cases h
  · rw [read?_of_ne_quote ha] at h
    cases hnumber : number? (a :: cs) with
    | some digits =>
        rw [hnumber] at h
        cases h
        simp only [number?] at hnumber
        split at hnumber
        · cases hnumber
        · rename_i hdigits
          cases hnumber
          simp only [Bool.or_eq_true, not_or, List.isEmpty_iff] at hdigits
          exact ⟨hdigits.1, fun d hd => List.mem_takeWhile_imp hd⟩
    | none =>
        rw [hnumber, word?] at h
        split at h
        · cases h
        · rename_i hname
          cases h
          exact isWord_takeWhile hcomment hnumber (by simpa using hname)

theorem layout_text_append {atom : Atom} (h : atom.Valid) (rest : List Char) :
    layout false (atom.text ++ rest) = [] := by
  have hfront : ∀ a cs, isNameChar a = true → a ≠ '#' → layout false (a :: cs) = [] := by
    intro a cs hname hcomment
    have hblank : Text.isBlank a = false := by
      simp only [isNameChar, Bool.not_eq_true', Bool.or_eq_false_iff] at hname
      exact hname.1.1.1.1
    simp [layout, hblank, hcomment]
  cases atom with
  | string body => rfl
  | number digits =>
      obtain ⟨hne, hall⟩ := h
      obtain ⟨d, ds, rfl⟩ := List.exists_cons_of_ne_nil hne
      have hd := hall d (by simp)
      refine hfront d _ (isNameChar_of_isWordChar (isWordChar_of_isDigit hd)) ?_
      rintro rfl
      cases hd
  | word name =>
      obtain ⟨a, cs, rfl⟩ := List.exists_cons_of_ne_nil h.nonempty
      exact hfront a _ (h.chars a (by simp)) (by simpa using h.uncommented)

/-- A valid atom is read back from its text wherever the text ends at a boundary. -/
theorem read?_text_append {atom : Atom} (h : atom.Valid) {rest : List Char}
    (hrest : Boundary rest) :
    read? (atom.text ++ rest) = some atom := by
  cases atom with
  | string body =>
      have hbody : (body ++ '"' :: rest).takeWhile (· ≠ '"') = body := by
        rw [List.takeWhile_append_of_pos fun c hc => by
          simpa using fun heq : c = '"' => h (heq ▸ hc)]
        simp
      have hcontains : (body ++ '"' :: rest).contains '"' = true := by simp
      have htext : (string body).text ++ rest = '"' :: (body ++ '"' :: rest) := by simp [text]
      rw [htext, read?_quote, string?, if_pos hcontains, hbody]
      rfl
  | number digits =>
      obtain ⟨hne, hall⟩ := h
      have hnumber : number? (digits ++ rest) = some digits := by
        rw [number?_append_of_boundary hrest,
          number?_eq_self hne (List.takeWhile_eq_self_iff.mpr hall)]
      have hquote : ∀ d ∈ digits, d ≠ '"' := by
        rintro d hd rfl
        cases hall _ hd
      obtain ⟨d, ds, rfl⟩ := List.exists_cons_of_ne_nil hne
      rw [text, List.cons_append, read?_of_ne_quote (hquote d (by simp)), ← List.cons_append,
        hnumber]
      rfl
  | word name =>
      have hnumber : number? (name ++ rest) = none := by
        rw [number?_append_of_boundary hrest]
        exact number?_eq_none_iff.mpr h.unnumbered
      have hword : word? (name ++ rest) = some name := by
        rw [word?_append_of_boundary hrest,
          word?_eq_self h.nonempty (List.takeWhile_eq_self_iff.mpr h.chars)]
      have hquote : ∀ c ∈ name, c ≠ '"' := by
        rintro c hc rfl
        cases h.chars _ hc
      obtain ⟨a, cs, rfl⟩ := List.exists_cons_of_ne_nil h.nonempty
      rw [text, List.cons_append, read?_of_ne_quote (hquote a (by simp)), ← List.cons_append,
        hnumber, hword]
      rfl

end Atom

namespace Token

/-- What a token says, wherever it stands: its kind and its characters. -/
def spelling (t : Token) : Kind × String :=
  (t.kind, t.text)

/-- Token lists that can be written down: punctuation marks and valid atoms, and at the end
possibly a string that is left open. -/
inductive Written : List Token → Prop where
  | nil : Written []
  | mark {t : Token} {ts : List Token} {a : Char} :
      Kind.ofMark? a = some t.kind → t.text = String.ofList [a] → Written ts → Written (t :: ts)
  | atom {t : Token} {ts : List Token} {atom : Atom} :
      atom.Valid → t.spelling = (.ofAtom atom, String.ofList atom.text) → Written ts →
      Written (t :: ts)
  | unclosed {t : Token} {body : List Char} :
      t.spelling = (.unclosed, String.ofList ('"' :: body)) → '"' ∉ body → Written [t]

end Token

namespace Cursor

theorem tokens_atom {atom : Atom} (h : atom.Valid) (p : Position) {rest : List Char}
    (hrest : Atom.Boundary rest) :
    (Cursor.mk p (atom.text ++ rest)).tokens =
      ⟨.ofAtom atom, String.ofList atom.text, p⟩ ::
        (Cursor.mk (p.after atom.text) rest).tokens := by
  have hskip := skip_of_layout_eq_nil (c := ⟨p, atom.text ++ rest⟩) (Atom.layout_text_append h rest)
  rw [tokens_of_read? hskip (Atom.read?_text_append h hrest)]
  simp [move]

theorem tokens_mark {a : Char} {kind : Token.Kind} (h : Token.Kind.ofMark? a = some kind)
    (p : Position) (rest : List Char) :
    (Cursor.mk p (a :: rest)).tokens =
      ⟨kind, String.ofList [a], p⟩ :: (Cursor.mk (p.advance a) rest).tokens := by
  have hlayout : layout false (a :: rest) = [] := by
    rcases Token.Kind.ofMark?_cases h with ⟨rfl, -⟩ | ⟨rfl, -⟩ | ⟨rfl, -⟩ <;> rfl
  rw [tokens_of_head? (skip_of_layout_eq_nil (c := ⟨p, a :: rest⟩) hlayout) rfl h]
  rfl

theorem valid_of_read? {c : Cursor} {atom : Atom} (hskip : c.skip = c)
    (h : Atom.read? c.rest = some atom) : atom.Valid := by
  obtain ⟨a, cs, hrest⟩ := List.exists_cons_of_ne_nil (Atom.ne_nil_of_read? h)
  have hlayout := layout_of_skip_eq_self hskip
  rw [hrest, layout_cons_eq_nil_iff] at hlayout
  exact Atom.valid_of_read? (Token.lexeme_not_layout hlayout).2 (hrest ▸ h)

theorem written_tokens (c : Cursor) : Token.Written c.tokens := by
  obtain ⟨n, hn⟩ : ∃ n, c.rest.length = n := ⟨_, rfl⟩
  induction n using Nat.strong_induction_on generalizing c with
  | h n ih =>
      rw [← tokens_skip]
      have hle : c.skip.rest.length ≤ n := hn ▸ c.length_skip_le
      cases front c.skip_skip with
      | finish _ htokens =>
          rw [htokens]
          exact .nil
      | mark a kind hhead hmark htokens =>
          rw [htokens]
          exact .mark hmark rfl (ih _ ((length_next_lt hhead).trans_le hle) _ rfl)
      | atom atom hread htokens =>
          rw [htokens]
          have hlt := length_move_lt (Atom.ne_nil_of_read? hread) (Atom.text_ne_nil_of_read? hread)
          exact .atom (valid_of_read? c.skip_skip hread) rfl (ih _ (hlt.trans_le hle) _ rfl)
      | unclosed hhead hread htokens =>
          rw [htokens]
          obtain ⟨cs, hrest⟩ := List.head?_eq_some_iff.mp hhead
          have hbody : '"' ∉ cs := fun hquote => by
            simp [hrest, Atom.read?_quote, Atom.string?, hquote] at hread
          exact .unclosed (by rw [hrest]; rfl) hbody

end Cursor

end Egg
