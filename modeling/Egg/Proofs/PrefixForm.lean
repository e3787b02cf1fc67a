import Egg.Proofs.FirstBadToken
import Egg.Proofs.JoinedSources

namespace Egg

theorem takeWhile_of_append {p : Char → Bool} {cs more : List Char}
    (h : (cs ++ more).takeWhile p <+: cs) : cs.takeWhile p = (cs ++ more).takeWhile p := by
  by_cases hall : cs.takeWhile p = cs
  · have hcs : cs <+: (cs ++ more).takeWhile p := by
      rw [List.takeWhile_append_of_pos (List.takeWhile_eq_self_iff.mp hall)]
      exact List.prefix_append _ _
    rw [hall]
    exact hcs.eq_of_length_le h.length_le
  · exact (takeWhile_append_of_ne hall more).symm

theorem layout_of_append {inComment : Bool} {cs more : List Char}
    (h : layout inComment (cs ++ more) <+: cs) :
    layout inComment cs = layout inComment (cs ++ more) := by
  obtain ⟨inside, hinside⟩ := layout_append inComment cs
  rw [hinside] at h ⊢
  split
  · rename_i hall
    rw [if_pos hall] at h
    rw [hall]
    exact (List.prefix_append cs _).eq_of_length_le h.length_le
  · rfl

namespace Atom

variable {cs more : List Char}

theorem string?_of_append {body : List Char} (h : string? (cs ++ more) = some body)
    (htext : (string body).text <+: cs) : string? cs = some body := by
  obtain ⟨rest, rfl⟩ := htext
  cases hstring : string? ((string body).text ++ rest) with
  | some body' =>
      rw [string?_append hstring more] at h
      exact h
  | none => simp [text, string?] at hstring

theorem number?_eq_some {digits : List Char} (h : number? cs = some digits) :
    digits ≠ [] ∧ cs.takeWhile Char.isDigit = digits := by
  simp only [number?] at h
  split at h
  · cases h
  · rename_i hdigits
    cases h
    simp only [Bool.or_eq_true, not_or] at hdigits
    exact ⟨by simpa using hdigits.1, rfl⟩

theorem word?_eq_some {name : List Char} (h : word? cs = some name) :
    name ≠ [] ∧ cs.takeWhile isNameChar = name := by
  simp only [word?] at h
  split at h
  · cases h
  · rename_i hname
    cases h
    exact ⟨by simpa using hname, rfl⟩

theorem number?_of_append {digits : List Char} (h : number? (cs ++ more) = some digits)
    (htext : digits <+: cs) : number? cs = some digits := by
  by_cases hall : cs.takeWhile Char.isDigit = cs
  · obtain ⟨hne, rfl⟩ := number?_eq_some h
    have hcs := takeWhile_of_append htext
    rw [hall] at hcs
    rw [← hcs] at hne ⊢
    exact number?_eq_self hne hall
  · rw [← number?_append_of_ne hall more, h]

theorem word?_of_append {name : List Char} (h : word? (cs ++ more) = some name)
    (htext : name <+: cs) : word? cs = some name := by
  obtain ⟨hne, rfl⟩ := word?_eq_some h
  rw [← takeWhile_of_append htext] at hne ⊢
  simp [word?, hne]

theorem number?_eq_none_of_append {name : List Char} (h : number? (cs ++ more) = none)
    (hword : word? (cs ++ more) = some name) (htext : name <+: cs) : number? cs = none := by
  by_cases hall : cs.takeWhile Char.isDigit = cs
  · have hchars : ∀ c ∈ cs, isNameChar c = true := fun c hc =>
      isNameChar_of_isWordChar (isWordChar_of_isDigit (List.takeWhile_eq_self_iff.mp hall c hc))
    have hmore : more.takeWhile isNameChar = [] := by
      obtain ⟨-, rfl⟩ := word?_eq_some hword
      rw [List.takeWhile_append_of_pos hchars] at htext
      have hle := htext.length_le
      rw [List.length_append] at hle
      exact List.length_eq_zero_iff.mp (by omega)
    have hboundary : Boundary more := by
      intro c hc
      obtain ⟨rest, rfl⟩ := List.head?_eq_some_iff.mp hc
      simpa using hmore
    rw [← number?_append_of_boundary hboundary cs, h]
  · rw [← number?_append_of_ne hall more, h]

theorem read?_of_append {atom : Atom} (h : read? (cs ++ more) = some atom)
    (htext : atom.text <+: cs) :
    read? cs = some atom := by
  obtain ⟨a, cs, rfl⟩ : ∃ a cs', cs = a :: cs' := by
    apply List.exists_cons_of_ne_nil
    rintro rfl
    exact text_ne_nil_of_read? h (List.prefix_nil.mp htext)
  by_cases ha : a = '"'
  · subst ha
    rw [List.cons_append, read?_quote] at h
    obtain ⟨body, hbody, rfl⟩ := Option.map_eq_some_iff.mp h
    rw [read?_quote, string?_of_append hbody htext]
    rfl
  · rw [List.cons_append, read?_of_ne_quote ha, ← List.cons_append] at h
    rw [read?_of_ne_quote ha]
    cases hnumber : number? (a :: cs ++ more) with
    | some digits =>
        rw [hnumber] at h
        cases h
        rw [number?_of_append hnumber htext]
        rfl
    | none =>
        rw [hnumber] at h
        obtain ⟨name, hword, rfl⟩ := Option.map_eq_some_iff.mp h
        rw [number?_eq_none_of_append hnumber hword htext, word?_of_append hword htext]
        rfl

end Atom

namespace Cursor

variable {c d : Cursor} {more : List Char}

theorem append_inj (h : c.append more = d.append more) : c = d := by
  obtain ⟨hposition, hrest⟩ := Cursor.mk.inj h
  exact congrArg₂ Cursor.mk hposition (List.append_cancel_right hrest)

theorem Leads.exists_append {c' : Cursor} (h : d.Leads (c'.append more)) :
    ∃ d' : Cursor, d = d'.append more := by
  obtain ⟨text, hrest, -⟩ := h
  exact ⟨⟨d.position, text ++ c'.rest⟩, congrArg (Cursor.mk d.position) (by simp [hrest, append])⟩

theorem prefix_of_move {text : List Char} (htext : text <+: c.rest ++ more)
    (h : (c.append more).move text = d.append more) : text <+: c.rest := by
  obtain ⟨rest, hrest⟩ := htext
  have hdrop : (c.rest ++ more).drop text.length = d.rest ++ more := congrArg Cursor.rest h
  rw [← hrest, List.drop_left] at hdrop
  have hwhole : (text ++ d.rest) ++ more = c.rest ++ more := by
    rw [List.append_assoc, ← hdrop, hrest]
  exact ⟨d.rest, List.append_cancel_right hwhole⟩

theorem move_of_append {text : List Char} (htext : text <+: c.rest ++ more)
    (h : (c.append more).move text = d.append more) : c.move text = d :=
  append_inj ((append_move (prefix_of_move htext h) more).symm.trans h)

theorem skip_of_append (h : (c.append more).skip = d.append more) : c.skip = d := by
  have hlayout : layout false (c.rest ++ more) <+: c.rest ++ more := layout_prefix_self false _
  have htext := prefix_of_move hlayout h
  rw [skip, layout_of_append htext]
  exact move_of_append hlayout h

theorem read?_of_append {atom : Atom} (hread : Atom.read? (c.append more).rest = some atom)
    (h : (c.append more).move atom.text = d.append more) :
    Atom.read? c.rest = some atom ∧ c.move atom.text = d := by
  have htext : atom.text <+: c.rest ++ more := Atom.text_prefix_of_read? hread
  exact ⟨Atom.read?_of_append hread (prefix_of_move htext h), move_of_append htext h⟩

theorem next_of_append {a : Char} (hhead : (c.append more).rest.head? = some a)
    (h : (c.append more).next = d.append more) : c.rest.head? = some a ∧ c.next = d := by
  obtain ⟨rest, hrest⟩ := List.head?_eq_some_iff.mp hhead
  have hmove : (c.append more).move [a] = d.append more := by
    rw [← h, next, hrest]
    rfl
  have htext : [a] <+: c.rest ++ more := ⟨rest, hrest.symm⟩
  obtain ⟨cs, hcs⟩ := prefix_of_move htext hmove
  refine ⟨by rw [← hcs]; rfl, ?_⟩
  rw [next, ← hcs]
  exact move_of_append htext hmove

theorem head?_of_append {a : Char} (hhead : (c.append more).rest.head? = some a)
    (h : (d.append more).rest.length < (c.append more).rest.length) : c.rest.head? = some a := by
  rcases hrest : c.rest with _ | ⟨b, cs⟩
  · simp only [append, hrest, List.nil_append, List.length_append] at h
    omega
  · simpa [append, hrest] using hhead

theorem head?_skip_append {a : Char} (h : c.skip.rest.head? = some a) (more : List Char) :
    (c.append more).skip.rest.head? = some a := by
  obtain ⟨inside, hinside⟩ := layout_append false c.rest
  have hne : layout false c.rest ≠ c.rest := by
    intro hall
    simp [skip, move, hall] at h
  have hskip : (c.append more).skip = c.skip.append more := by
    rw [skip, append, hinside, if_neg hne]
    exact append_move (layout_prefix_self false c.rest) more
  rw [hskip]
  simp [append, h]

end Cursor

namespace Expr

/-- A reader does not depend on the text behind the place where it stops. -/
def Cuts (item : Reader Expr) : Prop :=
  ∀ (c c' : Cursor) (e : Expr) (more : List Char),
    forget (item (c.append more)) = .ok (e, c'.append more) → forget (item c) = .ok (e, c')

section Cuts

variable {item : Reader Expr} (hadvances : Advances item) (hcuts : Cuts item) {c c' : Cursor}
  {more : List Char}

include hadvances hcuts

theorem readArguments_cuts {es : List Expr}
    (h : forget (readArguments item (c.append more)) = .ok (es, c'.append more)) :
    forget (readArguments item c) = .ok (es, c') := by
  obtain ⟨n, hn⟩ : ∃ n, c.rest.length = n := ⟨_, rfl⟩
  induction n using Nat.strong_induction_on generalizing c es with
  | h n ih =>
      by_cases hclose : (c.append more).skip.rest.head? = some ')'
      · rw [forget_readArguments, if_pos hclose] at h
        obtain ⟨rfl, hnext⟩ := Prod.mk.inj (Except.ok.inj h)
        obtain ⟨d, hd⟩ := Cursor.Leads.exists_append
          (hnext ▸ Cursor.Leads.next (c.append more).skip)
        rw [hd] at hclose hnext
        obtain ⟨hhead, hmove⟩ := Cursor.next_of_append hclose hnext
        rw [forget_readArguments, Cursor.skip_of_append hd, if_pos hhead, hmove]
      · have hopen : c.skip.rest.head? ≠ some ')' :=
          fun hhead => hclose (Cursor.head?_skip_append hhead more)
        rcases readArguments_ok h with ⟨hhead, -, -⟩ | ⟨e, c₁, others, hfirst, rfl, hmore⟩
        · exact absurd hhead hclose
        · rcases hmore with ⟨hcomma, hmore⟩ | ⟨hclose₁, hmore⟩
          · have hleads := readArguments_leads hadvances hmore
            obtain ⟨d, rfl⟩ := Cursor.Leads.exists_append ((Cursor.Leads.next c₁).trans hleads)
            obtain ⟨d₁, hd₁⟩ := hleads.exists_append
            obtain ⟨hhead, rfl⟩ := Cursor.next_of_append hcomma hd₁
            have hitem := hcuts c d e more hfirst
            have hlt : d.next.rest.length < n :=
              hn ▸ (Cursor.length_next_lt hhead).trans (property_of_forget hitem)
            rw [hd₁] at hmore
            rw [forget_readArguments, if_neg hopen, hitem]
            simp only [hhead, if_true, ih _ hlt hmore rfl]
            rfl
          · have hleads := readArguments_leads hadvances hmore
            obtain ⟨d, rfl⟩ := hleads.exists_append
            have hitem := hcuts c d e more hfirst
            have hlt : d.rest.length < n := hn ▸ property_of_forget hitem
            have hhead : d.rest.head? = some ')' :=
              Cursor.head?_of_append hclose₁ (property_of_forget hmore)
            rw [forget_readArguments, if_neg hopen, hitem]
            simp only [hhead, Option.some.injEq, Char.reduceEq, if_false, if_true,
              ih _ hlt hmore rfl]
            rfl

theorem readApplications_cuts {f e : Expr}
    (h : forget (readApplications item f (c.append more)) = .ok (e, c'.append more)) :
    forget (readApplications item f c) = .ok (e, c') := by
  obtain ⟨n, hn⟩ : ∃ n, c.rest.length = n := ⟨_, rfl⟩
  induction n using Nat.strong_induction_on generalizing c f with
  | h n ih =>
      rcases readApplications_ok h with ⟨hopen, rfl, hskip⟩ | ⟨hopen, es, c₁, harguments, hmore⟩
      · have hopen' : c.skip.rest.head? ≠ some '(' :=
          fun hhead => hopen (Cursor.head?_skip_append hhead more)
        rw [forget_readApplications, if_neg hopen', Cursor.skip_of_append hskip.symm]
      · have hleads := (readApplications_advances hadvances hmore).1
        have hleads' := (readArguments_leads hadvances harguments).trans hleads
        obtain ⟨d₁, rfl⟩ := hleads.exists_append
        obtain ⟨d₂, hd₂⟩ := hleads'.exists_append
        obtain ⟨d, hd⟩ := ((Cursor.Leads.next _).trans hleads').exists_append
        rw [hd] at hopen hd₂
        obtain ⟨hhead, rfl⟩ := Cursor.next_of_append hopen hd₂
        obtain rfl := Cursor.skip_of_append hd
        rw [hd, hd₂] at harguments
        have hargs := readArguments_cuts hadvances hcuts harguments
        have hlt : d₁.rest.length < n :=
          hn ▸ (property_of_forget hargs).trans
            ((Cursor.length_next_lt hhead).trans_le c.length_skip_le)
        rw [forget_readApplications, if_pos hhead, hargs]
        exact ih _ hlt hmore rfl

end Cuts

theorem cuts_readExpression (limit : Nat) : Cuts (readExpression limit) := by
  induction limit with
  | zero =>
      intro c c' e more h
      cases h
  | succ limit ih =>
      intro c c' e more h
      rw [forget_readExpression_succ] at h
      split at h
      · cases h
      · rename_i atom hread
        have hadvances := advances_readExpression limit
        have hleads := (readApplications_advances hadvances h).1
        obtain ⟨d₁, hd₁⟩ := hleads.exists_append
        obtain ⟨d, hd⟩ :=
          ((Cursor.Leads.move (Atom.text_prefix_of_read? hread)).trans hleads).exists_append
        rw [hd] at hread hd₁
        obtain ⟨hatom, rfl⟩ := Cursor.read?_of_append hread hd₁
        obtain rfl := Cursor.skip_of_append hd
        rw [hd, hd₁] at h
        rw [forget_readExpression_succ, hatom]
        exact readApplications_cuts hadvances ih h

theorem head?_of_readExpression {limit : Nat} {c c' : Cursor} {e : Expr}
    (h : forget (readExpression limit c) = .ok (e, c')) :
    ∀ a ∈ c'.rest.head?, Text.isBlank a = false ∧ a ≠ '#' ∧ a ≠ '(' := by
  intro a ha
  obtain ⟨cs, hrest⟩ := List.head?_eq_some_iff.mp ha
  have hlayout := Cursor.layout_of_skip_eq_self (sound_readExpression limit c c' e h).1
  rw [hrest, layout_cons_eq_nil_iff] at hlayout
  obtain ⟨hblank, hcomment⟩ := Token.lexeme_not_layout hlayout
  refine ⟨hblank, hcomment, ?_⟩
  rintro rfl
  exact (advances_readExpression limit c c' e h).2 ha

/-- What the reader has passed is read as a whole with the same result. -/
theorem parse_of_readExpression {limit : Nat} {text : String} {e : Expr} {c : Cursor}
    (h : forget (readExpression limit (.ofText text.toList)) = .ok (e, c)) :
    ∃ front, text = front ++ String.ofList c.rest ∧ parse limit front = .ok e := by
  obtain ⟨front, hrest, -⟩ := (advances_readExpression limit _ c e h).1
  have htext : text.toList = front ++ c.rest := hrest
  have hcut : forget (readExpression limit (.ofText front)) = .ok (e, ⟨c.position, []⟩) := by
    refine cuts_readExpression limit _ _ e c.rest ?_
    rw [htext] at h
    exact h
  refine ⟨String.ofList front, ?_, ?_⟩
  · rw [← String.ofList_append, ← htext, String.ofList_toList]
  · rw [parse_eq, String.toList_ofList, hcut]
    rfl

/-- Reading at the front of a text is reading a whole program as far as it goes. A text is read as
a program if nothing is left behind the expression at its front. In any case what is read at the
front, cut off from what is left, is read as a whole with the same result, positions included;
what is left starts neither with layout nor with an opening parenthesis, and is what the text as a
whole is rejected for; and where there is no expression at the front, the text as a whole is
rejected in the same way. -/
theorem parse_iff_parsePrefix (limit : Nat) (text : String) :
    (∀ e, parse limit text = .ok e ↔ parsePrefix limit text = .ok (e, "")) ∧
    (∀ e rest, parsePrefix limit text = .ok (e, rest) →
      ∃ front, text = front ++ rest ∧
        (∀ a ∈ rest.toList.head?, Text.isBlank a = false ∧ a ≠ '#' ∧ a ≠ '(') ∧
        parse limit front = .ok e ∧
        (rest ≠ "" → ∃ r, parse limit text = .error (.rejected r) ∧
          r.reason.message = "unexpected trailing text" ∧ r.rest = rest)) ∧
    ∀ stop, parsePrefix limit text = .error stop → parse limit text = .error stop := by
  rw [parse_eq, parsePrefix_eq]
  cases hread : forget (readExpression limit (.ofText text.toList)) with
  | error stop =>
      refine ⟨fun e => ⟨fun h => ?_, fun h => ?_⟩, fun e rest h => ?_, fun stop' h => ?_⟩
      · cases h
      · cases h
      · cases h
      · cases h
        rfl
  | ok result =>
      obtain ⟨e, c⟩ := result
      dsimp only
      refine ⟨fun e' => ⟨fun h => ?_, fun h => ?_⟩, fun e' rest h => ?_, fun stop h => ?_⟩
      · split at h
        · rename_i hempty
          cases h
          rw [List.isEmpty_iff.mp hempty]
        · cases h
      · obtain ⟨rfl, hrest⟩ := Prod.mk.inj (Except.ok.inj h)
        have hnil : c.rest = [] := by simpa using congrArg String.toList hrest
        rw [hnil]
        rfl
      · obtain ⟨rfl, rfl⟩ := Prod.mk.inj (Except.ok.inj h)
        obtain ⟨front, htext, hfront⟩ := parse_of_readExpression hread
        refine ⟨front, htext, ?_, hfront, fun hrest => ?_⟩
        · rw [String.toList_ofList]
          exact head?_of_readExpression hread
        · have hne : ¬ c.rest.isEmpty = true := by
            intro hempty
            exact hrest (by rw [List.isEmpty_iff.mp hempty])
          rw [if_neg hne]
          exact ⟨⟨.trailingText, c.position, String.ofList c.rest⟩, rfl, rfl, rfl⟩
      · cases h

/-- An expression with a comment behind it, and what is a program of its own. -/
def commentedCall : String := "f(1) # (\n"

theorem parse_iff_parsePrefix_commentedCall :
    ∃ e r, parsePrefix 9 (commentedCall ++ "12é") = .ok (e, "12é") ∧ parse 9 commentedCall = .ok e ∧
      parse 9 (commentedCall ++ "12é") = .error (.rejected r) ∧ r.rest = "12é" := by
  have hrest : (match parsePrefix 9 (commentedCall ++ "12é") with
      | .ok (_, rest) => decide (rest = "12é")
      | .error _ => false) = true := by decide +kernel
  split at hrest
  · rename_i e rest hread
    obtain rfl := of_decide_eq_true hrest
    obtain ⟨-, hcut, -⟩ := parse_iff_parsePrefix 9 (commentedCall ++ "12é")
    obtain ⟨front, htext, -, hfront, hleft⟩ := hcut e "12é" hread
    obtain ⟨r, hrejected, -, hr⟩ := hleft (by decide)
    obtain rfl : commentedCall = front := (String.append_left_inj "12é").mp htext
    exact ⟨e, r, hread, hfront, hrejected, hr⟩
  · cases hrest

end Expr

end Egg
