import Egg.Proofs.ViablePrefix

namespace Egg

namespace Cursor

/-- One cursor stands further on than another in the same text. -/
def Leads (c c' : Cursor) : Prop :=
  ∃ text, c.rest = text ++ c'.rest ∧ c'.position = c.position.after text

namespace Leads

variable {c c₁ c₂ : Cursor}

theorem trans (h : c.Leads c₁) (h' : c₁.Leads c₂) : c.Leads c₂ := by
  obtain ⟨text, hrest, hposition⟩ := h
  obtain ⟨more, hrest', hposition'⟩ := h'
  refine ⟨text ++ more, ?_, ?_⟩
  · rw [hrest, hrest', List.append_assoc]
  · rw [hposition', hposition, Position.after_append]

theorem move {text : List Char} (h : text <+: c.rest) : c.Leads (c.move text) := by
  obtain ⟨rest, hrest⟩ := h
  exact ⟨text, by simp [Cursor.move, ← hrest], rfl⟩

theorem skip (c : Cursor) : c.Leads c.skip :=
  move (layout_prefix_self false c.rest)

theorem next (c : Cursor) : c.Leads c.next :=
  move (List.take_prefix 1 c.rest)

end Leads

theorem kind_ne_of_head? {c : Cursor} {a : Char} {kind : Token.Kind} (hskip : c.skip = c)
    (hmark : Token.Kind.ofMark? a = some kind) (h : c.rest.head? ≠ some a) :
    ∀ t ∈ c.tokens.head?, t.kind ≠ kind := by
  intro t ht hkind
  obtain ⟨ts, htokens⟩ := List.head?_eq_some_iff.mp ht
  exact h (head?_of_tokens hskip htokens (by rw [hkind, hmark])).1

theorem leaf?_of_read? {c : Cursor} (hskip : c.skip = c) (h : Atom.read? c.rest = none) :
    ∀ t ∈ c.tokens.head?, t.leaf? = none := by
  intro t ht
  obtain ⟨ts, htokens⟩ := List.head?_eq_some_iff.mp ht
  rw [Option.eq_none_iff_forall_ne_some]
  intro f hleaf
  obtain ⟨atom, hread, -⟩ := read?_of_tokens hskip htokens hleaf
  rw [h] at hread
  cases hread

end Cursor

namespace Spot

theorem step_wanting_eq_none {n : Nat} {t : Token} (hleaf : t.leaf? = none)
    (hclose : n = 0 ∨ t.kind ≠ .closing) : (wanting n).step t.kind = none := by
  rw [Option.eq_none_iff_forall_ne_some]
  intro next h
  rcases step_wanting_cases h with ⟨⟨f, hf⟩, -⟩ | ⟨k, rfl, hkind, -⟩
  · rw [hleaf] at hf
    cases hf
  · exact hclose.elim (Nat.succ_ne_zero k) fun hne => hne hkind

theorem step_having_eq_none {n : Nat} {t : Token} (hopen : t.kind ≠ .opening)
    (hinside : n = 0 ∨ t.kind ≠ .comma ∧ t.kind ≠ .closing) : (having n).step t.kind = none := by
  rw [Option.eq_none_iff_forall_ne_some]
  intro next h
  rcases step_having_cases h with ⟨hkind, -⟩ | ⟨k, rfl, ⟨hkind, -⟩ | ⟨hkind, -⟩⟩
  · exact hopen hkind
  · exact hinside.elim (Nat.succ_ne_zero k) fun hne => hne.1 hkind
  · exact hinside.elim (Nat.succ_ne_zero k) fun hne => hne.2 hkind

end Spot

namespace Expr

open Spot Token.Kind

/-- A reader moves on in the text and does not stop before a suffix. -/
def Advances (item : Reader Expr) : Prop :=
  ∀ (c c' : Cursor) (e : Expr), forget (item c) = .ok (e, c') →
    c.Leads c' ∧ c'.rest.head? ≠ some '('

/-- How a text is rejected from a spot on: the reader passes tokens that lead from there to
another spot, and what stands behind them leads nowhere. -/
def Rejects (spot : Spot) (c : Cursor) (r : Rejection) : Prop :=
  ∃ (c' : Cursor) (ts : List Token) (next : Spot),
    c.Leads c' ∧ c'.skip = c' ∧ r.position = c'.position ∧ r.rest = String.ofList c'.rest ∧
    c.tokens = ts ++ c'.tokens ∧ spot.walk ts = some next ∧
    ∀ t ∈ c'.tokens.head?, next.step t.kind = none

namespace Rejects

variable {spot next : Spot} {c c₁ : Cursor} {r : Rejection}

theorem here (hskip : c.skip = c) (hstuck : ∀ t ∈ c.tokens.head?, spot.step t.kind = none)
    (reason : Reason) : Rejects spot c ⟨reason, c.position, String.ofList c.rest⟩ :=
  ⟨c, [], spot, ⟨[], rfl, rfl⟩, hskip, rfl, rfl, rfl, rfl, hstuck⟩

theorem behind {us : List Token} (hleads : c.Leads c₁) (htokens : c.tokens = us ++ c₁.tokens)
    (hwalk : spot.walk us = some next) (h : Rejects next c₁ r) : Rejects spot c r := by
  obtain ⟨c', ts, last, hleads', hskip, hposition, hrest, htokens', hwalk', hstuck⟩ := h
  refine ⟨c', us ++ ts, last, hleads.trans hleads', hskip, hposition, hrest, ?_, ?_, hstuck⟩
  · rw [htokens, htokens', List.append_assoc]
  · rw [walk_append, hwalk, Option.bind_some, hwalk']

theorem behind_skip (h : Rejects spot c.skip r) : Rejects spot c r :=
  h.behind (.skip c) (show c.tokens = [] ++ c.skip.tokens from c.tokens_skip.symm) rfl

theorem behind_token {t : Token} (hleads : c.Leads c₁) (htokens : c.tokens = t :: c₁.tokens)
    (hstep : spot.step t.kind = some next) (h : Rejects next c₁ r) : Rejects spot c r := by
  refine h.behind hleads (show c.tokens = [t] ++ c₁.tokens from htokens) ?_
  rw [walk_cons, hstep]
  rfl

theorem behind_mark {a : Char} {kind : Token.Kind} (hskip : c.skip = c)
    (hhead : c.rest.head? = some a) (hmark : ofMark? a = some kind)
    (hstep : spot.step kind = some next) (h : Rejects next c.next r) : Rejects spot c r :=
  h.behind_token (.next c) (Cursor.tokens_of_head? hskip hhead hmark) hstep

end Rejects

section Readers

variable {item : Reader Expr} {c c' : Cursor} {r : Rejection}

theorem readArguments_leads (hitem : Advances item) {es : List Expr}
    (h : forget (readArguments item c) = .ok (es, c')) : c.Leads c' := by
  induction hn : c.rest.length using Nat.strong_induction_on generalizing c es with
  | h n ih =>
      rcases readArguments_ok h with ⟨-, -, rfl⟩ | ⟨e, c₁, more, hfirst, -, hmore⟩
      · exact (Cursor.Leads.skip c).trans (.next c.skip)
      · have hlt : c₁.rest.length < n := hn ▸ property_of_forget hfirst
        have hleads := (hitem c c₁ e hfirst).1
        rcases hmore with ⟨hcomma, hmore⟩ | ⟨-, hmore⟩
        · have hlt' := (Cursor.length_next_lt hcomma).trans hlt
          exact hleads.trans ((Cursor.Leads.next c₁).trans (ih _ hlt' hmore rfl))
        · exact hleads.trans (ih _ hlt hmore rfl)

theorem readApplications_advances (hitem : Advances item) {f e : Expr}
    (h : forget (readApplications item f c) = .ok (e, c')) :
    c.Leads c' ∧ c'.rest.head? ≠ some '(' := by
  induction hn : c.rest.length using Nat.strong_induction_on generalizing c f with
  | h n ih =>
      rcases readApplications_ok h with ⟨hopen, -, rfl⟩ | ⟨hopen, es, c₁, harguments, hmore⟩
      · exact ⟨.skip c, hopen⟩
      · have hlt : c₁.rest.length < n :=
          hn ▸ (property_of_forget harguments).trans
            ((Cursor.length_next_lt hopen).trans_le c.length_skip_le)
        obtain ⟨hleads, hopen'⟩ := ih _ hlt hmore rfl
        have harguments' := (Cursor.Leads.next c.skip).trans (readArguments_leads hitem harguments)
        exact ⟨((Cursor.Leads.skip c).trans harguments').trans hleads, hopen'⟩

theorem advances_readExpression (limit : Nat) : Advances (readExpression limit) := by
  induction limit with
  | zero =>
      intro c c' e h
      cases h
  | succ limit ih =>
      intro c c' e h
      rw [forget_readExpression_succ] at h
      split at h
      · cases h
      · rename_i atom hread
        obtain ⟨hleads, hopen⟩ := readApplications_advances ih h
        have hatom := Cursor.Leads.move (Atom.text_prefix_of_read? hread)
        exact ⟨(Cursor.Leads.skip c).trans (hatom.trans hleads), hopen⟩

/-- An item reader rejects only what leads nowhere; a closing parenthesis is not given to it where
one may stand. -/
def Strict (item : Reader Expr) : Prop :=
  ∀ (n : Nat) (c : Cursor) (r : Rejection), (n = 0 ∨ c.skip.rest.head? ≠ some ')') →
    forget (item c) = .error (.rejected r) → Rejects (wanting n) c r

variable (hsound : Sound item) (hadvances : Advances item) (hstrict : Strict item)

include hsound hadvances hstrict

theorem readArguments_rejects (n : Nat) (h : forget (readArguments item c) = .error (.rejected r)) :
    Rejects (wanting (n + 1)) c r := by
  induction hn : c.rest.length using Nat.strong_induction_on generalizing c with
  | h k ih =>
      obtain ⟨hclose, hfirst | ⟨e, c₁, hfirst, hmore⟩⟩ := readArguments_error h
      · exact hstrict (n + 1) c r (.inr hclose) hfirst
      · obtain ⟨hskip, us, hus, hderives⟩ := hsound c c₁ e hfirst
        obtain ⟨hleads, hopen⟩ := hadvances c c₁ e hfirst
        have hlt : c₁.rest.length < k := hn ▸ property_of_forget hfirst
        refine .behind hleads hus (hderives.isWalked (n + 1)) ?_
        rcases hmore with ⟨hcomma, hmore⟩ | ⟨hclose, hmore⟩ | ⟨hcomma, hclose, hreject⟩
        · refine .behind_mark hskip hcomma ofMark?_comma rfl ?_
          exact ih _ ((Cursor.length_next_lt hcomma).trans hlt) hmore rfl
        · -- a closing parenthesis behind an argument is always taken
          rw [readArguments_closing hskip hclose] at hmore
          cases hmore
        · cases hreject
          refine .here hskip (fun t ht => ?_) _
          exact step_having_eq_none (Cursor.kind_ne_of_head? hskip ofMark?_opening hopen t ht)
            (.inr ⟨Cursor.kind_ne_of_head? hskip ofMark?_comma hcomma t ht,
              Cursor.kind_ne_of_head? hskip ofMark?_closing hclose t ht⟩)

theorem readApplications_rejects (n : Nat) {f : Expr}
    (h : forget (readApplications item f c) = .error (.rejected r)) : Rejects (having n) c r := by
  induction hn : c.rest.length using Nat.strong_induction_on generalizing c f with
  | h k ih =>
      obtain ⟨hopen, hfails⟩ := readApplications_error h
      refine Rejects.behind_skip (.behind_mark c.skip_skip hopen ofMark?_opening rfl ?_)
      rcases hfails with harguments | ⟨es, c₁, harguments, hmore⟩
      · exact readArguments_rejects hsound hadvances hstrict n harguments
      · obtain ⟨us, l, hus, hl, hderives⟩ := readArguments_derives hsound harguments
        have hlt : c₁.rest.length < k :=
          hn ▸ (property_of_forget harguments).trans
            ((Cursor.length_next_lt hopen).trans_le c.length_skip_le)
        have hwalk := hderives.isWalked.walk_closing hl n
        refine .behind (readArguments_leads hadvances harguments) ?_ hwalk (ih _ hlt hmore rfl)
        rw [hus, List.append_assoc, List.singleton_append]

end Readers

theorem strict_readExpression (limit : Nat) : Strict (readExpression limit) := by
  induction limit with
  | zero =>
      intro n c r _ h
      cases h
  | succ limit ih =>
      intro n c r hclose h
      rw [forget_readExpression_succ] at h
      apply Rejects.behind_skip
      split at h
      · rename_i hread
        cases h
        refine .here c.skip_skip (fun t ht => ?_) _
        refine step_wanting_eq_none (Cursor.leaf?_of_read? c.skip_skip hread t ht) ?_
        exact hclose.imp_right fun hne =>
          Cursor.kind_ne_of_head? c.skip_skip ofMark?_closing hne t ht
      · rename_i atom hread
        have hleads := Cursor.Leads.move (Atom.text_prefix_of_read? hread)
        refine .behind_token hleads (Cursor.tokens_of_read? c.skip_skip hread) ?_
          (readApplications_rejects (sound_readExpression limit) (advances_readExpression limit)
            ih n h)
        exact step_of_leaf? (Token.leaf?_ofAtom atom c.skip.position) n

theorem parse_rejects {limit : Nat} {source : String} {r : Rejection}
    (h : parse limit source = .error (.rejected r)) :
    Rejects (wanting 0) (.ofText source.toList) r := by
  rw [parse_eq] at h
  split at h
  · rename_i hread
    cases h
    exact strict_readExpression limit 0 _ r (.inl rfl) hread
  · rename_i e c hread
    split at h
    · cases h
    · cases h
      obtain ⟨hskip, ts, hts, hderives⟩ := sound_readExpression limit _ c e hread
      obtain ⟨hleads, hopen⟩ := advances_readExpression limit _ c e hread
      refine .behind hleads hts (hderives.isWalked 0) (.here hskip (fun t ht => ?_) _)
      exact step_having_eq_none (Cursor.kind_ne_of_head? hskip ofMark?_opening hopen t ht)
        (.inl rfl)

end Expr

namespace Cursor

theorem start_of_tokens {c : Cursor} {t : Token} {ts : List Token} (hskip : c.skip = c)
    (h : c.tokens = t :: ts) : t.start = c.position := by
  rcases front hskip with ⟨-, htokens⟩ | ⟨_, _, -, -, htokens⟩ | ⟨_, -, htokens⟩ | ⟨-, -, htokens⟩
  · rw [htokens] at h
    cases h
  all_goals
    rw [htokens] at h
    rw [← (List.cons.inj h).1]

theorem offset_of_mem_tokens {c : Cursor} {t : Token} (ht : t ∈ c.tokens) :
    c.position.offset ≤ t.start.offset ∧
      t.start.offset < c.position.offset + c.rest.length := by
  rw [tokens_eq_filter] at ht
  exact (Token.tiles_scanFrom c.position c.rest).offset_bounds.2 t (List.mem_of_mem_filter ht)

theorem pairwise_tokens (c : Cursor) :
    c.tokens.Pairwise fun t u => t.start.offset < u.start.offset := by
  rw [tokens_eq_filter]
  exact (Token.tiles_scanFrom c.position c.rest).pairwise.filter _

theorem head?_of_mem_tokens {c : Cursor} {t : Token} (hskip : c.skip = c) (ht : t ∈ c.tokens)
    (hstart : t.start.offset = c.position.offset) : c.tokens.head? = some t := by
  rcases htokens : c.tokens with _ | ⟨u, us⟩
  · simp [htokens] at ht
  · have hpairwise := c.pairwise_tokens
    rw [htokens, List.pairwise_cons] at hpairwise
    rw [htokens, List.mem_cons] at ht
    rcases ht with rfl | ht
    · rfl
    · have hlt := hpairwise.1 t ht
      rw [start_of_tokens hskip htokens] at hlt
      omega

/-- The tokens that are passed on the way from one cursor to another are those that start before
it. -/
theorem Leads.filter_tokens {c c' : Cursor} {ts : List Token} (hleads : c.Leads c')
    (hskip : c'.skip = c') (h : c.tokens = ts ++ c'.tokens) :
    c.tokens.filter (·.start.offset < c'.position.offset) = ts := by
  have hbefore : ∀ t ∈ ts, t.start.offset < c'.position.offset := by
    intro t ht
    rcases htokens : c'.tokens with _ | ⟨u, us⟩
    · -- nothing is left, so the second cursor stands at the end of the text
      obtain ⟨text, hrest, hposition⟩ := hleads
      have hlt := (offset_of_mem_tokens (c := c) (h ▸ List.mem_append_left _ ht)).2
      rw [Expr.rest_eq_nil_of_tokens_eq_nil hskip htokens, List.append_nil] at hrest
      rwa [hposition, Position.offset_after, ← hrest]
    · have hpairwise := c.pairwise_tokens
      rw [h, htokens, List.pairwise_append] at hpairwise
      rw [← start_of_tokens hskip htokens]
      exact hpairwise.2.2 t ht u (by simp)
  rw [h, List.filter_append, List.filter_eq_self.mpr (by simpa using hbefore),
    List.filter_eq_nil_iff.mpr, List.append_nil]
  intro t ht
  simpa using (offset_of_mem_tokens ht).1

end Cursor

/-- The tokens of a text that start before an offset, layout left out. -/
def Token.before (source : String) (offset : Nat) : List Token :=
  (scan source).filter (·.start.offset < offset)

/-- A text is rejected at the first token that cannot continue a program. What was not read is the
text from the offset of the rejection on, and the line and column are those of the offset, which
is the end of the text or the start of a token. The tokens before it begin some expression, and no
expression begins with them and the token that starts there. -/
theorem rejected_at_first_bad_token {limit : Nat} {source : String} {r : Rejection}
    (h : Expr.parse limit source = .error (.rejected r)) :
    r.rest.toList = source.toList.drop r.position.offset ∧
    (r.position.line, r.position.column) = lineCol source.toList r.position.offset ∧
    (r.position.offset = source.length ∨ ∃ t ∈ Token.scan source, t.start = r.position) ∧
    (∃ e more, Derives (.expression e) (Token.before source r.position.offset ++ more)) ∧
    ∀ t ∈ Token.scan source, t.start.offset = r.position.offset → ∀ e more,
      ¬ Derives (.expression e) (Token.before source r.position.offset ++ t :: more) := by
  obtain ⟨c, ts, spot, hleads, hskip, hposition, hrest, htokens, hwalk, hstuck⟩ :=
    Expr.parse_rejects h
  have hbefore : Token.before source c.position.offset = ts := hleads.filter_tokens hskip htokens
  obtain ⟨text, htext, hafter⟩ := hleads
  have hsource : source.toList = text ++ c.rest := htext
  have hplace : c.position = Position.start.after text := hafter
  have hoffset : c.position.offset = text.length := by
    rw [hplace, Position.offset_after]
    exact Nat.zero_add _
  rw [Cursor.tokens_ofText] at htokens
  rw [hposition, hrest, hbefore]
  refine ⟨?_, ?_, ?_, exists_derives_append_iff.mpr ⟨spot, hwalk⟩, ?_⟩
  · rw [hoffset, hsource, List.drop_left, String.toList_ofList]
  · rw [hsource, hplace, lineCol_offset_after]
  · rcases hnext : c.tokens with _ | ⟨t, us⟩
    · left
      have hnil := Expr.rest_eq_nil_of_tokens_eq_nil hskip hnext
      rw [hoffset, ← String.length_toList, hsource, hnil, List.append_nil]
    · right
      exact ⟨t, by simp [htokens, hnext], Cursor.start_of_tokens hskip hnext⟩
  · intro t ht hstart e more hderives
    have hmem : t ∈ c.tokens := by
      rw [htokens, List.mem_append] at ht
      refine ht.resolve_left fun hpassed => ?_
      rw [← hbefore, Token.before, List.mem_filter, decide_eq_true_iff] at hpassed
      omega
    have hstep := hstuck t (Cursor.head?_of_mem_tokens hskip hmem hstart)
    rw [List.append_cons] at hderives
    obtain ⟨next, hnext⟩ := exists_derives_append_iff.mp ⟨e, more, hderives⟩
    rw [Spot.walk_append, hwalk, Option.bind_some, Spot.walk_cons, hstep] at hnext
    cases hnext

theorem rejected_at_first_bad_token_missingComma :
    Expr.parse 9 "do(1,\n 2 3)" = .error (.rejected ⟨.noSeparator, ⟨2, 4, 9⟩, "3)"⟩) ∧
      (∃ e more, Derives (.expression e) (Token.before "do(1,\n 2 3)" 9 ++ more)) ∧
      ∀ t ∈ Token.scan "do(1,\n 2 3)", t.start.offset = 9 → ∀ e more,
        ¬ Derives (.expression e) (Token.before "do(1,\n 2 3)" 9 ++ t :: more) := by
  have hreject : (match Expr.parse 9 "do(1,\n 2 3)" with
      | .error (.rejected r) => decide (r = ⟨.noSeparator, ⟨2, 4, 9⟩, "3)"⟩)
      | _ => false) = true := by decide +kernel
  split at hreject
  · rename_i r hparse
    obtain rfl := of_decide_eq_true hreject
    obtain ⟨-, -, -, hbegins, hstuck⟩ := rejected_at_first_bad_token hparse
    exact ⟨hparse, hbegins, hstuck⟩
  · cases hreject

end Egg
