import Egg.Proofs.Grammar
import Egg.Proofs.ReaderEquations

namespace Egg

def Token.openings (ts : List Token) : Nat :=
  ts.countP (·.kind = .opening)

theorem Token.openings_append (ts us : List Token) :
    Token.openings (ts ++ us) = Token.openings ts + Token.openings us :=
  List.countP_append

theorem Token.openings_cons (t : Token) (ts : List Token) :
    Token.openings (t :: ts) = Token.openings ts + if t.kind = .opening then 1 else 0 := by
  simp [Token.openings, List.countP_cons]

namespace Expr

open Token.Kind

/-- A reader of expressions is sound if it stops behind all layout, and the tokens it has passed
derive its result. -/
def Sound (item : Reader Expr) : Prop :=
  ∀ (c c' : Cursor) (e : Expr), forget (item c) = .ok (e, c') →
    c'.skip = c' ∧ ∃ ts, c.tokens = ts ++ c'.tokens ∧ Derives (.expression e) ts

theorem readArguments_closing {item : Reader Expr} {c : Cursor} (hskip : c.skip = c)
    (hclose : c.rest.head? = some ')') : forget (readArguments item c) = .ok ([], c.next) := by
  rw [forget_readArguments, hskip, if_pos hclose]

theorem readArguments_derives {item : Reader Expr} (hitem : Sound item) {c c' : Cursor}
    {es : List Expr} (h : forget (readArguments item c) = .ok (es, c')) :
    ∃ ts r, c.tokens = ts ++ r :: c'.tokens ∧ r.kind = .closing ∧ Derives (.arguments es) ts := by
  induction hn : c.rest.length using Nat.strong_induction_on generalizing c es with
  | h n ih =>
      rcases readArguments_ok h with ⟨hclose, rfl, rfl⟩ | ⟨e, c₁, more, hfirst, rfl, hmore⟩
      · have htokens := Cursor.tokens_of_head? c.skip_skip hclose ofMark?_closing
        rw [Cursor.tokens_skip] at htokens
        exact ⟨[], _, htokens, rfl, .noArgument⟩
      · obtain ⟨hskip, us, hus, hexpression⟩ := hitem c c₁ e hfirst
        have hlt : c₁.rest.length < n := hn ▸ property_of_forget hfirst
        rcases hmore with ⟨hcomma, hmore⟩ | ⟨hclose, hmore⟩
        · have hnext : c₁.next.rest.length < n := (Cursor.length_next_lt hcomma).trans hlt
          obtain ⟨ts, r, hts, hr, harguments⟩ := ih _ hnext hmore rfl
          have hmark := Cursor.tokens_of_head? hskip hcomma ofMark?_comma
          refine ⟨us ++ ⟨.comma, String.ofList [','], c₁.position⟩ :: ts, r, ?_, hr,
            .argument hexpression (.furtherArguments_of_arguments rfl harguments)⟩
          rw [hus, hmark, hts]
          simp
        · rw [readArguments_closing hskip hclose] at hmore
          cases hmore
          have hmark := Cursor.tokens_of_head? hskip hclose ofMark?_closing
          refine ⟨us, _, by rw [hus, hmark], rfl, ?_⟩
          simpa using Derives.argument hexpression .lastArgument

theorem readApplications_derives {item : Reader Expr} (hitem : Sound item) {f e : Expr}
    {c c' : Cursor} (h : forget (readApplications item f c) = .ok (e, c')) :
    c'.skip = c' ∧ ∃ ts, c.tokens = ts ++ c'.tokens ∧ Derives (.suffixes f e) ts := by
  induction hn : c.rest.length using Nat.strong_induction_on generalizing c f with
  | h n ih =>
      rcases readApplications_ok h with ⟨_, rfl, rfl⟩ | ⟨hopen, es, c₁, harguments, hmore⟩
      · exact ⟨c.skip_skip, [], by simp, .noSuffix⟩
      · have hmark := Cursor.tokens_of_head? c.skip_skip hopen ofMark?_opening
        rw [Cursor.tokens_skip] at hmark
        obtain ⟨us, r, hus, hr, hderives⟩ := readArguments_derives hitem harguments
        have hlt : c₁.rest.length < n :=
          hn ▸ (property_of_forget harguments).trans
            ((Cursor.length_next_lt hopen).trans_le c.length_skip_le)
        obtain ⟨hskip, ts, hts, hsuffixes⟩ := ih _ hlt hmore rfl
        refine ⟨hskip, ⟨.opening, String.ofList ['('], c.skip.position⟩ :: (us ++ r :: ts), ?_,
          .suffix rfl hderives hr hsuffixes⟩
        rw [hmark, hus, hts]
        simp

theorem sound_readExpression (limit : Nat) : Sound (readExpression limit) := by
  induction limit with
  | zero =>
      intro c c' e h
      cases h
  | succ limit ih =>
      intro c c' e h
      rw [forget_readExpression_succ] at h
      split at h
      · cases h
      · rename_i atom hread
        obtain ⟨hskip, ts, hts, hsuffixes⟩ := readApplications_derives ih h
        refine ⟨hskip, _ :: ts, ?_, .expression (Token.leaf?_ofAtom atom c.skip.position) hsuffixes⟩
        rw [← c.tokens_skip, Cursor.tokens_of_read? c.skip_skip hread, hts]
        rfl

/-- How a reader can fail: it rejects the text, or more parentheses are opened ahead than the
nesting limit allows. -/
def Fails (limit : Nat) (c : Cursor) (stop : Stop) : Prop :=
  (∃ rejection, stop = .rejected rejection) ∨
    stop = .fault .tooDeep ∧ limit ≤ Token.openings c.tokens

theorem Fails.mono {limit : Nat} {c c₁ : Cursor} {stop : Stop} {ts : List Token}
    (htokens : c.tokens = ts ++ c₁.tokens) (h : Fails limit c₁ stop) : Fails limit c stop := by
  rcases h with h | ⟨hdeep, hlimit⟩
  · exact .inl h
  · refine .inr ⟨hdeep, hlimit.trans ?_⟩
    rw [htokens, Token.openings_append]
    exact Nat.le_add_left _ _

theorem readArguments_fails {item : Reader Expr} {limit : Nat} (hsound : Sound item)
    (hitem : ∀ c stop, forget (item c) = .error stop → Fails limit c stop) {c : Cursor}
    {stop : Stop} (h : forget (readArguments item c) = .error stop) : Fails limit c stop := by
  induction hn : c.rest.length using Nat.strong_induction_on generalizing c with
  | h n ih =>
      rcases (readArguments_error h).2 with hfirst | ⟨e, c₁, hfirst, hmore⟩
      · exact hitem c stop hfirst
      · obtain ⟨hskip, us, hus, -⟩ := hsound c c₁ e hfirst
        have hlt : c₁.rest.length < n := hn ▸ property_of_forget hfirst
        apply Fails.mono hus
        rcases hmore with ⟨hcomma, hmore⟩ | ⟨-, hmore⟩ | ⟨-, -, hreject⟩
        · have hmark := Cursor.tokens_of_head? hskip hcomma ofMark?_comma
          apply Fails.mono (show c₁.tokens = [_] ++ c₁.next.tokens from hmark)
          exact ih _ ((Cursor.length_next_lt hcomma).trans hlt) hmore rfl
        · exact ih _ hlt hmore rfl
        · exact .inl ⟨_, hreject⟩

theorem readApplications_fails {item : Reader Expr} {limit : Nat} (hsound : Sound item)
    (hitem : ∀ c stop, forget (item c) = .error stop → Fails limit c stop) {f : Expr} {c : Cursor}
    {stop : Stop} (h : forget (readApplications item f c) = .error stop) :
    Fails (limit + 1) c stop := by
  induction hn : c.rest.length using Nat.strong_induction_on generalizing c f with
  | h n ih =>
      obtain ⟨hopen, hfails⟩ := readApplications_error h
      have hmark := Cursor.tokens_of_head? c.skip_skip hopen ofMark?_opening
      rw [Cursor.tokens_skip] at hmark
      rcases hfails with harguments | ⟨es, c₁, harguments, hmore⟩
      · -- the opening parenthesis itself accounts for one more level
        rcases readArguments_fails hsound hitem harguments with hrejected | ⟨hdeep, hlimit⟩
        · exact .inl hrejected
        · refine .inr ⟨hdeep, ?_⟩
          rw [hmark, Token.openings_cons]
          simpa using hlimit
      · obtain ⟨us, r, hus, -, -⟩ := readArguments_derives hsound harguments
        have hlt : c₁.rest.length < n :=
          hn ▸ (property_of_forget harguments).trans
            ((Cursor.length_next_lt hopen).trans_le c.length_skip_le)
        have htokens : c.tokens =
            (⟨.opening, String.ofList ['('], c.skip.position⟩ :: us ++ [r]) ++ c₁.tokens := by
          rw [hmark, hus]
          simp
        exact Fails.mono htokens (ih _ hlt hmore rfl)

theorem readExpression_fails (limit : Nat) {c : Cursor} {stop : Stop}
    (h : forget (readExpression limit c) = .error stop) : Fails limit c stop := by
  induction limit generalizing c stop with
  | zero =>
      cases h
      exact .inr ⟨rfl, Nat.zero_le _⟩
  | succ limit ih =>
      rw [forget_readExpression_succ] at h
      split at h
      · cases h
        exact .inl ⟨_, rfl⟩
      · rename_i atom hread
        have htokens : c.tokens = [_] ++ (c.skip.move atom.text).tokens :=
          c.tokens_skip ▸ Cursor.tokens_of_read? c.skip_skip hread
        apply Fails.mono htokens
        exact readApplications_fails (sound_readExpression limit) (fun _ _ => ih) h

/-- Reading ends with a result before the given tokens, unless the nesting limit stops it. -/
def Reads {α : Type} (result : Except Stop (α × Cursor)) (a : α) (rest : List Token) : Prop :=
  result = .error (.fault .tooDeep) ∨ ∃ c', result = .ok (a, c') ∧ c'.tokens = rest

theorem reads_noArgument {item : Reader Expr} {c : Cursor} {r : Token} {rest : List Token}
    (htokens : c.tokens = r :: rest) (hr : r.kind = .closing) :
    Reads (forget (readArguments item c)) [] rest := by
  rw [← c.tokens_skip] at htokens
  obtain ⟨hclose, hnext⟩ := Cursor.head?_of_tokens c.skip_skip htokens
    (by rw [hr]; exact ofMark?_closing)
  refine .inr ⟨c.skip.next, ?_, hnext⟩
  rw [forget_readArguments, if_pos hclose]

/-- The reader has come from an argument to a comma or to the closing parenthesis, and reads on
for further arguments. -/
def ReadsFurther (item : Reader Expr) (c : Cursor) (es : List Expr) (rest : List Token) : Prop :=
  c.rest.head? = some ',' ∧ Reads (forget (readArguments item c.next)) es rest ∨
    c.rest.head? = some ')' ∧ Reads (forget (readArguments item c)) es rest

theorem reads_argument {item : Reader Expr} {c : Cursor} {e : Expr} {es : List Expr}
    {tokens rest : List Token} (hclose : c.skip.rest.head? ≠ some ')')
    (hfirst : Reads (forget (item c)) e tokens)
    (hfurther : ∀ c₁, forget (item c) = .ok (e, c₁) → c₁.tokens = tokens →
      ReadsFurther item c₁ es rest) :
    Reads (forget (readArguments item c)) (e :: es) rest := by
  rw [forget_readArguments, if_neg hclose]
  rcases hfirst with hdeep | ⟨c₁, hok, htokens⟩
  · rw [hdeep]
    exact .inl rfl
  · have hmore : ∀ c₂, Reads (forget (readArguments item c₂)) es rest →
        Reads ((forget (readArguments item c₂)).map fun r => (e :: r.1, r.2)) (e :: es) rest := by
      rintro c₂ (hdeep | ⟨c₃, hok₃, hrest⟩)
      · rw [hdeep]
        exact .inl rfl
      · rw [hok₃]
        exact .inr ⟨c₃, rfl, hrest⟩
    rw [hok]
    rcases hfurther c₁ hok htokens with ⟨hcomma, hreads⟩ | ⟨hclose₁, hreads⟩
    · simp only [hcomma, if_true]
      exact hmore _ hreads
    · simp only [hclose₁, Option.some.injEq, Char.reduceEq, if_false, if_true]
      exact hmore _ hreads

end Expr

/-- What the reader does with a text whose tokens begin with those of a phrase. Behind an
expression there must not be a further suffix, and behind arguments there must be the closing
parenthesis. -/
def Phrase.IsRead : Phrase → List Token → Prop
  | .expression e, ts => ∀ (limit : Nat) (c : Cursor) (rest : List Token),
      c.tokens = ts ++ rest → (∀ t ∈ rest.head?, t.kind ≠ .opening) →
      Expr.Reads (Expr.forget (Expr.readExpression limit c)) e rest
  | .suffixes f e, ts => ∀ (limit : Nat) (c : Cursor) (rest : List Token),
      c.tokens = ts ++ rest → (∀ t ∈ rest.head?, t.kind ≠ .opening) →
      Expr.Reads (Expr.forget (Expr.readApplications (Expr.readExpression limit) f c)) e rest
  | .arguments es, ts => ∀ (limit : Nat) (c : Cursor) (r : Token) (rest : List Token),
      c.tokens = ts ++ r :: rest → r.kind = .closing →
      Expr.Reads (Expr.forget (Expr.readArguments (Expr.readExpression limit) c)) es rest
  | .furtherArguments es, ts => ∀ (limit : Nat) (c : Cursor) (r : Token) (rest : List Token),
      c.skip = c → c.tokens = ts ++ r :: rest → r.kind = .closing →
      Expr.ReadsFurther (Expr.readExpression limit) c es rest

namespace Derives

open Egg.Expr Token.Kind

theorem head?_skip_ne_closing {e : Expr} {c : Cursor} {ts rest : List Token}
    (h : Derives (.expression e) ts) (htokens : c.tokens = ts ++ rest) :
    c.skip.rest.head? ≠ some ')' := by
  intro hclose
  have hmark := Cursor.tokens_of_head? c.skip_skip hclose ofMark?_closing
  rw [Cursor.tokens_skip, htokens] at hmark
  cases h with
  | expression hleaf _ =>
      obtain ⟨rfl, -⟩ := List.cons.inj hmark
      cases hleaf

theorem kind_head?_ne_opening {es : List Expr} {us rest : List Token} {r : Token}
    (h : Derives (.furtherArguments es) us) (hr : r.kind = .closing) :
    ∀ t ∈ (us ++ r :: rest).head?, t.kind ≠ .opening := by
  intro t ht
  cases h with
  | lastArgument =>
      cases ht
      simp [hr]
  | trailingComma hc =>
      cases ht
      simp [hc]
  | furtherArgument hc _ _ =>
      cases ht
      simp [hc]

theorem isRead {p : Phrase} {ts : List Token} (h : Derives p ts) : p.IsRead ts := by
  induction h with
  | @expression t f e ts hleaf _ ih =>
      intro limit c rest htokens hrest
      cases limit with
      | zero => exact .inl rfl
      | succ limit =>
          rw [← c.tokens_skip] at htokens
          obtain ⟨atom, hread, rfl, hmove⟩ := Cursor.read?_of_tokens c.skip_skip htokens hleaf
          rw [forget_readExpression_succ]
          simp only [hread]
          exact ih limit _ rest hmove hrest
  | @noSuffix f =>
      intro limit c rest htokens hrest
      have hopen : c.skip.rest.head? ≠ some '(' := by
        intro hopen
        have hmark := Cursor.tokens_of_head? c.skip_skip hopen ofMark?_opening
        rw [Cursor.tokens_skip, htokens] at hmark
        exact hrest ⟨.opening, _, _⟩ (by rw [List.nil_append] at hmark; rw [hmark]; rfl) rfl
      refine .inr ⟨c.skip, ?_, by simpa using htokens⟩
      rw [forget_readApplications, if_neg hopen]
  | @suffix f e es l r us ts hl _ hr _ ihArguments ihSuffixes =>
      intro limit c rest htokens hrest
      rw [← c.tokens_skip] at htokens
      obtain ⟨hopen, hnext⟩ := Cursor.head?_of_tokens c.skip_skip htokens
        (by rw [hl]; exact ofMark?_opening)
      rw [forget_readApplications, if_pos hopen]
      rcases ihArguments limit c.skip.next r (ts ++ rest) (by simpa using hnext) hr with
        hdeep | ⟨c₁, hok, htokens₁⟩
      · rw [hdeep]
        exact .inl rfl
      · rw [hok]
        exact ihSuffixes limit c₁ rest htokens₁ hrest
  | noArgument =>
      intro limit c r rest htokens hr
      exact reads_noArgument htokens hr
  | @argument e es ts us hfirst hfurther ihFirst ihFurther =>
      intro limit c r rest htokens hr
      rw [List.append_assoc] at htokens
      apply reads_argument (hfirst.head?_skip_ne_closing htokens)
        (ihFirst limit c _ htokens (hfurther.kind_head?_ne_opening hr))
      intro c₁ hok htokens₁
      exact ihFurther limit c₁ r rest (sound_readExpression limit c c₁ e hok).1 htokens₁ hr
  | lastArgument =>
      intro limit c r rest hskip htokens hr
      have hclose := (Cursor.head?_of_tokens hskip htokens (by rw [hr]; exact ofMark?_closing)).1
      exact .inr ⟨hclose, reads_noArgument htokens hr⟩
  | trailingComma hc =>
      intro limit c r rest hskip htokens hr
      obtain ⟨hcomma, hnext⟩ := Cursor.head?_of_tokens hskip htokens
        (by rw [hc]; exact ofMark?_comma)
      exact .inl ⟨hcomma, reads_noArgument hnext hr⟩
  | @furtherArgument m e es ts us hc hfirst hfurther ihFirst ihFurther =>
      intro limit c r rest hskip htokens hr
      rw [List.cons_append, List.append_assoc] at htokens
      obtain ⟨hcomma, hnext⟩ := Cursor.head?_of_tokens hskip htokens
        (by rw [hc]; exact ofMark?_comma)
      refine .inl ⟨hcomma, ?_⟩
      apply reads_argument (hfirst.head?_skip_ne_closing hnext)
        (ihFirst limit c.next _ hnext (hfurther.kind_head?_ne_opening hr))
      intro c₁ hok htokens₁
      exact ihFurther limit c₁ r rest (sound_readExpression limit c.next c₁ e hok).1 htokens₁ hr

end Derives

namespace Expr

theorem rest_eq_nil_of_tokens_eq_nil {c : Cursor} (hskip : c.skip = c) (h : c.tokens = []) :
    c.rest = [] := by
  cases Cursor.front hskip with
  | finish hrest _ => exact hrest
  | mark _ _ _ _ htokens => simp [htokens] at h
  | atom _ _ htokens => simp [htokens] at h
  | unclosed _ _ htokens => simp [htokens] at h

theorem derives_of_parse {limit : Nat} {source : String} {e : Expr}
    (h : parse limit source = .ok e) : Derives (.expression e) (Token.scan source) := by
  rw [parse_eq] at h
  split at h
  · cases h
  · rename_i e' c hread
    split at h
    · rename_i hempty
      cases h
      obtain ⟨-, ts, hts, hderives⟩ := sound_readExpression limit _ c e hread
      rw [Cursor.tokens_of_rest_eq_nil (List.isEmpty_iff.mp hempty), List.append_nil,
        Cursor.tokens_ofText] at hts
      exact hts ▸ hderives
    · cases h

theorem parse_of_derives {source : String} {e : Expr}
    (h : Derives (.expression e) (Token.scan source)) (limit : Nat) :
    parse limit source = .error (.fault .tooDeep) ∨ parse limit source = .ok e := by
  have htokens : (Cursor.ofText source.toList).tokens = Token.scan source ++ [] := by
    rw [Cursor.tokens_ofText, List.append_nil]
  rw [parse_eq]
  rcases h.isRead limit _ [] htokens (by simp) with hdeep | ⟨c, hok, hnil⟩
  · rw [hdeep]
    exact .inl rfl
  · have hskip := (sound_readExpression limit _ c e hok).1
    rw [hok]
    simp [rest_eq_nil_of_tokens_eq_nil hskip hnil]

theorem parse_fails {limit : Nat} {source : String} {stop : Stop}
    (h : parse limit source = .error stop) :
    (∃ rejection, stop = .rejected rejection) ∨
      stop = .fault .tooDeep ∧ limit ≤ Token.openings (Token.scan source) := by
  rw [parse_eq] at h
  split at h
  · rename_i stop' hread
    cases h
    exact readExpression_fails limit hread
  · split at h
    · cases h
    · cases h
      exact .inl ⟨_, rfl⟩

/-- Reading a program decides the grammar. Within the nesting limit a text is read as an
expression, positions included, exactly when its tokens derive that expression, and is rejected
when they derive none, as with a string left open. The limit matters only to texts that open as
many parentheses, and no text has two derivations. -/
theorem parse_iff_derives (source : String) :
    (∀ limit, parse limit source ≠ .error (.fault .tooDeep) →
      (∀ e, parse limit source = .ok e ↔ Derives (.expression e) (Token.scan source)) ∧
      ((∀ e, ¬ Derives (.expression e) (Token.scan source)) →
        ∃ rejection, parse limit source = .error (.rejected rejection))) ∧
    (∀ limit, Token.openings (Token.scan source) < limit →
      parse limit source ≠ .error (.fault .tooDeep)) ∧
    ((∃ t ∈ Token.scan source, t.kind = .unclosed) →
      ∀ e, ¬ Derives (.expression e) (Token.scan source)) ∧
    (∀ e e', Derives (.expression e) (Token.scan source) →
      Derives (.expression e') (Token.scan source) → e = e') := by
  have hlimit : ∀ limit, Token.openings (Token.scan source) < limit →
      parse limit source ≠ .error (.fault .tooDeep) := by
    intro limit hlt hdeep
    rcases parse_fails hdeep with ⟨_, h⟩ | ⟨-, hle⟩
    · cases h
    · omega
  refine ⟨?_, hlimit, ?_, ?_⟩
  · intro limit hdeep
    refine ⟨fun e => ⟨derives_of_parse, fun h => ?_⟩, fun hnone => ?_⟩
    · exact (parse_of_derives h limit).resolve_left hdeep
    · cases hparse : parse limit source with
      | ok e => exact absurd (derives_of_parse hparse) (hnone e)
      | error stop =>
          rcases parse_fails hparse with ⟨rejection, rfl⟩ | ⟨rfl, -⟩
          · exact ⟨rejection, rfl⟩
          · exact absurd hparse hdeep
  · rintro ⟨t, ht, hkind⟩ e h
    exact h.kind_ne_unclosed t ht hkind
  · intro e e' h h'
    have hdeep := hlimit _ (Nat.lt_succ_self _)
    have hok := (parse_of_derives h _).resolve_left hdeep
    rw [(parse_of_derives h' _).resolve_left hdeep] at hok
    exact (Except.ok.inj hok).symm

end Expr

end Egg
