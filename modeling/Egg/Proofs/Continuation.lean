import Egg.Proofs.Tiling

/-!
Text behind text. When more text follows, the tokens of a text stay what they are, but for the
last one: where the text ends inside of it, it may go on, and then an atom stays an atom and
layout stays layout. Only a string that is left open can become something else altogether.
-/

namespace Egg

theorem takeWhile_append_of_ne {p : Char → Bool} {cs : List Char} (h : cs.takeWhile p ≠ cs)
    (more : List Char) : (cs ++ more).takeWhile p = cs.takeWhile p := by
  rw [List.takeWhile_append, if_neg]
  intro hlength
  exact h ((List.takeWhile_prefix p).eq_of_length hlength)

theorem layout_append (inComment : Bool) (cs : List Char) :
    ∃ inside, ∀ more, layout inComment (cs ++ more) =
      if layout inComment cs = cs then cs ++ layout inside more else layout inComment cs := by
  induction cs generalizing inComment with
  | nil => exact ⟨inComment, fun more => by simp [layout]⟩
  | cons c cs ih =>
      -- layout that takes the first character goes on as the layout of what follows
      have hstep : ∀ b, ∃ inside, ∀ more, c :: layout b (cs ++ more) =
          if c :: layout b cs = c :: cs then c :: (cs ++ layout inside more)
          else c :: layout b cs := by
        intro b
        obtain ⟨inside, hinside⟩ := ih b
        refine ⟨inside, fun more => ?_⟩
        simp only [hinside more, List.cons.injEq, true_and]
        split <;> rfl
      simp only [List.cons_append, layout]
      by_cases hcomment : (inComment && c != '\n') = true
      · simpa only [if_pos hcomment] using hstep true
      · by_cases hblank : Text.isBlank c = true
        · simpa only [if_neg hcomment, if_pos hblank] using hstep false
        · by_cases hmark : c = '#'
          · simpa only [if_neg hcomment, if_neg hblank, if_pos hmark] using hstep true
          · exact ⟨false, fun more => by simp [hcomment, hblank, hmark]⟩

namespace Atom

theorem string?_append {cs body : List Char} (h : string? cs = some body) (more : List Char) :
    string? (cs ++ more) = some body := by
  unfold string? at h
  split at h
  · rename_i cs
    split at h
    · rename_i hquote
      cases h
      have hne : cs.takeWhile (· ≠ '"') ≠ cs := by
        intro heq
        have hmem : '"' ∈ cs.takeWhile (· ≠ '"') := by
          rw [heq]
          simpa using hquote
        simpa using List.mem_takeWhile_imp hmem
      have hcontains : (cs ++ more).contains '"' = true := by
        simpa using Or.inl (by simpa using hquote)
      rw [List.cons_append, string?, if_pos hcontains, takeWhile_append_of_ne hne]
    · cases h
  · cases h

theorem number?_append_of_ne {cs : List Char} (h : cs.takeWhile Char.isDigit ≠ cs)
    (more : List Char) : number? (cs ++ more) = number? cs := by
  have hlt : (cs.takeWhile Char.isDigit).length < cs.length := by
    have hdigits := List.takeWhile_prefix (l := cs) Char.isDigit
    exact lt_of_le_of_ne hdigits.length_le fun hlength => h (hdigits.eq_of_length hlength)
  obtain ⟨b, rest, hrest⟩ : ∃ b rest, cs.drop (cs.takeWhile Char.isDigit).length = b :: rest :=
    List.exists_cons_of_ne_nil (by simpa using hlt)
  simp only [number?, takeWhile_append_of_ne h, List.drop_append_of_le_length hlt.le, hrest,
    List.cons_append, List.head?_cons]

theorem number?_eq_self {cs : List Char} (hcs : cs ≠ []) (h : cs.takeWhile Char.isDigit = cs) :
    number? cs = some cs := by
  simp [number?, h, hcs]

theorem word?_append_of_ne {cs : List Char} (h : cs.takeWhile isNameChar ≠ cs) (more : List Char) :
    word? (cs ++ more) = word? cs := by
  simp only [word?, takeWhile_append_of_ne h]

theorem word?_eq_self {cs : List Char} (hcs : cs ≠ []) (h : cs.takeWhile isNameChar = cs) :
    word? cs = some cs := by
  simp [word?, h, hcs]

theorem read?_quote (cs : List Char) : read? ('"' :: cs) = (string? ('"' :: cs)).map string := by
  have hdigit : Char.isDigit '"' = false := rfl
  have hname : isNameChar '"' = false := rfl
  simp [read?, number?, word?, hdigit, hname]

theorem read?_of_ne_quote {a : Char} (h : a ≠ '"') (cs : List Char) :
    read? (a :: cs) =
      ((number? (a :: cs)).map number).or ((word? (a :: cs)).map word) := by
  have hstring : string? (a :: cs) = none := by
    unfold string?
    split
    · rename_i heq
      exact absurd (List.cons.inj heq).1 h
    · rfl
  rw [read?, hstring]
  rfl

theorem read?_append {cs : List Char} {atom : Atom} (h : read? cs = some atom)
    (hne : atom.text ≠ cs) (more : List Char) : read? (cs ++ more) = some atom := by
  obtain ⟨a, cs, rfl⟩ := List.exists_cons_of_ne_nil (ne_nil_of_read? h)
  by_cases ha : a = '"'
  · subst ha
    rw [read?_quote] at h
    obtain ⟨body, hbody, rfl⟩ := Option.map_eq_some_iff.mp h
    rw [List.cons_append, read?_quote, ← List.cons_append, string?_append hbody]
    rfl
  · rw [read?_of_ne_quote ha] at h
    have hdigits : (a :: cs).takeWhile Char.isDigit ≠ a :: cs := by
      intro heq
      rw [number?_eq_self (by simp) heq] at h
      cases h
      exact hne rfl
    rw [List.cons_append, read?_of_ne_quote ha, ← List.cons_append, number?_append_of_ne hdigits]
    cases hnumber : number? (a :: cs) with
    | some digits =>
        rw [hnumber] at h
        exact h
    | none =>
        rw [hnumber] at h
        have hname : (a :: cs).takeWhile isNameChar ≠ a :: cs := by
          intro heq
          rw [word?_eq_self (by simp) heq] at h
          cases h
          exact hne rfl
        rw [word?_append_of_ne hname]
        exact h

end Atom

namespace Token

/-- The kinds of tokens that atoms make. -/
def Kind.isAtom : Kind → Bool
  | .string | .number | .word => true
  | _ => false

theorem Kind.isAtom_ofAtom (atom : Atom) : (Kind.ofAtom atom).isAtom = true := by
  cases atom <;> rfl

theorem lexeme_append_blank {a : Char} (ha : Text.isBlank a = true) (cs more : List Char) :
    lexeme a (cs ++ more) = lexeme a cs ∨ (lexeme a cs).2 = a :: cs := by
  simp only [lexeme, ha, if_true]
  by_cases h : cs.takeWhile Text.isBlank = cs
  · exact .inr (by rw [h])
  · exact .inl (by rw [takeWhile_append_of_ne h])

theorem lexeme_append_comment (cs more : List Char) :
    lexeme '#' (cs ++ more) = lexeme '#' cs ∨ (lexeme '#' cs).2 = '#' :: cs := by
  have hblank : Text.isBlank '#' = false := rfl
  simp only [lexeme, hblank, Bool.false_eq_true, if_false, if_true]
  by_cases h : cs.takeWhile (· ≠ '\n') = cs
  · exact .inr (by rw [h])
  · exact .inl (by rw [takeWhile_append_of_ne h])

theorem isLayout_lexeme (a : Char) (cs : List Char) :
    (lexeme a cs).1.isLayout = (Text.isBlank a || a = '#') := by
  cases hlayout : (lexeme a cs).1.isLayout with
  | true =>
      rcases lexeme_layout_cases hlayout with ⟨hblank, -⟩ | ⟨-, rfl, -⟩
      · simp [hblank]
      · simp
  | false =>
      obtain ⟨hblank, hcomment⟩ := lexeme_not_layout hlayout
      simp [hblank, hcomment]

theorem exists_read?_append {a : Char} {cs : List Char} {atom : Atom}
    (hblank : Text.isBlank a = false) (hmark : Kind.ofMark? a = none)
    (h : Atom.read? (a :: cs) = some atom) (more : List Char) :
    ∃ atom', Atom.read? (a :: (cs ++ more)) = some atom' := by
  cases hread : Atom.read? (a :: (cs ++ more)) with
  | some atom' => exact ⟨atom', rfl⟩
  | none =>
      obtain ⟨hopen, hclose, hcomma⟩ := Kind.ofMark?_eq_none_iff.mp hmark
      obtain rfl : a = '"' := by
        simpa [isNameChar, hblank, hopen, hclose, hcomma] using
          Atom.isNameChar_of_read?_eq_none hread
      rw [Atom.read?_quote] at h
      obtain ⟨body, hbody, -⟩ := Option.map_eq_some_iff.mp h
      rw [← List.cons_append, List.cons_append, Atom.read?_quote, ← List.cons_append,
        Atom.string?_append hbody] at hread
      cases hread

/-- The token at the front of a text, with more text behind it: it stays the same, unless the text
ends inside of it. -/
theorem lexeme_append {a : Char} {cs : List Char} (h : (lexeme a cs).1 ≠ .unclosed)
    (more : List Char) :
    lexeme a (cs ++ more) = lexeme a cs ∨
      (lexeme a cs).2 = a :: cs ∧ ((lexeme a cs).1.isLayout = true ∨
        (lexeme a cs).1.isAtom = true ∧ (lexeme a (cs ++ more)).1.isAtom = true) := by
  cases hlayout : (lexeme a cs).1.isLayout with
  | true =>
      rcases lexeme_layout_cases hlayout with ⟨hblank, -⟩ | ⟨-, rfl, -⟩
      · exact (lexeme_append_blank hblank cs more).imp_right fun hall => ⟨hall, .inl rfl⟩
      · exact (lexeme_append_comment cs more).imp_right fun hall => ⟨hall, .inl rfl⟩
  | false =>
      cases hmark : Kind.ofMark? a with
      | some kind => exact .inl (by rw [lexeme_of_mark hmark, lexeme_of_mark hmark])
      | none =>
          cases hread : Atom.read? (a :: cs) with
          | none =>
              rw [lexeme_of_not_mark hlayout hmark, hread] at h
              exact absurd rfl h
          | some atom =>
              have hlayout' : (lexeme a (cs ++ more)).1.isLayout = false := by
                rw [isLayout_lexeme, ← isLayout_lexeme a cs, hlayout]
              have hfirst := lexeme_of_not_mark hlayout hmark
              have hsecond := lexeme_of_not_mark hlayout' hmark
              rw [hread] at hfirst
              by_cases hall : atom.text = a :: cs
              · obtain ⟨atom', hread'⟩ :=
                  exists_read?_append (lexeme_not_layout hlayout).1 hmark hread more
                rw [hread'] at hsecond
                rw [hfirst, hsecond]
                exact .inr ⟨hall, .inr ⟨Kind.isAtom_ofAtom atom, Kind.isAtom_ofAtom atom'⟩⟩
              · have hsame := Atom.read?_append hread hall more
                rw [List.cons_append] at hsame
                rw [hsame] at hsecond
                exact .inl (hsecond.trans hfirst.symm)

/-- How tokens go on: those of the front stay, and an atom at the very end may become another
atom. -/
inductive Continues : List Token → List Token → Prop where
  | nil {us : List Token} : Continues [] us
  | cons {t : Token} {ts us : List Token} : Continues ts us → Continues (t :: ts) (t :: us)
  | atom {t u : Token} {us : List Token} :
      t.kind.isAtom = true → u.kind.isAtom = true → Continues [t] (u :: us)

end Token

namespace Cursor

theorem move_append {p : Position} {cs text : List Char} (h : text <+: cs) (more : List Char) :
    (Cursor.mk p (cs ++ more)).move text =
      ⟨((Cursor.mk p cs).move text).position, ((Cursor.mk p cs).move text).rest ++ more⟩ := by
  simp only [move, List.drop_append_of_le_length h.length_le]

/-- The tokens of a text in which no string is left open go on in the tokens of any longer text.
-/
theorem tokens_continues {p : Position} {cs : List Char}
    (h : ∀ t ∈ (Cursor.mk p cs).tokens, t.kind ≠ .unclosed) (more : List Char) :
    Token.Continues (Cursor.mk p cs).tokens (Cursor.mk p (cs ++ more)).tokens := by
  induction hn : cs.length using Nat.strong_induction_on generalizing p cs with
  | h n ih =>
      subst hn
      rcases cs with _ | ⟨a, cs⟩
      · rw [tokens_of_rest_eq_nil (c := ⟨p, []⟩) rfl]
        exact .nil
      · have hmove := move_append (p := p) (Token.lexeme_prefix a cs) more
        have hlt : ((Cursor.mk p (a :: cs)).move (Token.lexeme a cs).2).rest.length <
            (a :: cs).length :=
          length_move_lt (c := ⟨p, a :: cs⟩) (by simp) (Token.lexeme_ne_nil a cs)
        cases hlayout : (Token.lexeme a cs).1.isLayout with
        | true =>
            have htokens := tokens_of_isLayout (c := ⟨p, a :: cs⟩) rfl hlayout
            rw [htokens] at h ⊢
            have hkind : (Token.lexeme a cs).1 ≠ .unclosed := by
              intro hkind
              rw [hkind] at hlayout
              cases hlayout
            rcases Token.lexeme_append hkind more with hsame | ⟨hall, -⟩
            · rw [List.cons_append, tokens_of_isLayout (c := ⟨p, a :: (cs ++ more)⟩) rfl
                (by rw [hsame, hlayout]), hsame, ← List.cons_append, hmove]
              exact ih _ hlt h rfl
            · rw [tokens_of_rest_eq_nil (by simp [move, hall])]
              exact .nil
        | false =>
            have htokens := tokens_of_not_isLayout (c := ⟨p, a :: cs⟩) rfl hlayout
            rw [htokens] at h ⊢
            obtain ⟨hkind, hrest⟩ := List.forall_mem_cons.mp h
            have hlayout' : (Token.lexeme a (cs ++ more)).1.isLayout = false := by
              rw [Token.isLayout_lexeme, ← Token.isLayout_lexeme a cs, hlayout]
            rw [List.cons_append, tokens_of_not_isLayout (c := ⟨p, a :: (cs ++ more)⟩) rfl hlayout']
            rcases Token.lexeme_append hkind more with hsame | ⟨hall, hgrows⟩
            · rw [hsame, ← List.cons_append, hmove]
              exact .cons (ih _ hlt hrest rfl)
            · obtain ⟨hatom, hatom'⟩ := hgrows.resolve_left (by simp [hlayout])
              rw [tokens_of_rest_eq_nil (by simp [move, hall])]
              exact .atom hatom hatom'

end Cursor

end Egg
