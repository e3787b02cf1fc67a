import Egg.Proofs.GrammarReader
import Egg.Proofs.WrittenToken

namespace Egg

def Cursor.spellings (c : Cursor) : List (Token.Kind × String) :=
  c.tokens.map Token.spelling

namespace Atom

theorem eq_of_text_eq {a b : Atom} (hkind : Token.Kind.ofAtom a = Token.Kind.ofAtom b)
    (htext : a.text = b.text) : a = b := by
  cases a <;> cases b <;> simp_all [Token.Kind.ofAtom, text]

end Atom

namespace Cursor

variable {c d : Cursor}

@[simp] theorem spellings_skip (c : Cursor) : c.skip.spellings = c.spellings := by
  rw [spellings, tokens_skip, spellings]

theorem head?_of_spellings (hc : c.skip = c) (hd : d.skip = d) (h : c.spellings = d.spellings)
    {a : Char} {kind : Token.Kind} (hmark : Token.Kind.ofMark? a = some kind)
    (hhead : c.rest.head? = some a) :
    d.rest.head? = some a ∧ c.next.spellings = d.next.spellings := by
  rw [spellings, tokens_of_head? hc hhead hmark, List.map_cons, spellings] at h
  obtain ⟨t, ts, htokens, ht, hts⟩ := List.map_eq_cons_iff.mp h.symm
  have hkind : t.kind = kind := (Prod.mk.inj ht).1
  obtain ⟨hhead', hnext⟩ := head?_of_tokens hd htokens (by rw [hkind]; exact hmark)
  exact ⟨hhead', by rw [spellings, ← hts, ← hnext, spellings]⟩

theorem head?_iff_of_spellings (hc : c.skip = c) (hd : d.skip = d) (h : c.spellings = d.spellings)
    {a : Char} {kind : Token.Kind} (hmark : Token.Kind.ofMark? a = some kind) :
    c.rest.head? = some a ↔ d.rest.head? = some a :=
  ⟨fun hhead => (head?_of_spellings hc hd h hmark hhead).1,
    fun hhead => (head?_of_spellings hd hc h.symm hmark hhead).1⟩

theorem read?_of_spellings (hc : c.skip = c) (hd : d.skip = d) (h : c.spellings = d.spellings)
    {atom : Atom} (hread : Atom.read? c.rest = some atom) :
    Atom.read? d.rest = some atom ∧
      (c.move atom.text).spellings = (d.move atom.text).spellings := by
  rw [spellings, tokens_of_read? hc hread, List.map_cons] at h
  cases front hd with
  | finish _ htokens => simp [spellings, htokens] at h
  | mark a kind _ hmark htokens =>
      rw [spellings, htokens, List.map_cons] at h
      have hkind := (Prod.mk.inj (List.cons.inj h).1).1
      rcases Token.Kind.ofMark?_cases hmark with ⟨-, rfl⟩ | ⟨-, rfl⟩ | ⟨-, rfl⟩ <;>
        cases atom <;> cases hkind
  | atom atom' hread' htokens =>
      rw [spellings, htokens, List.map_cons] at h
      obtain ⟨hspelling, hrest⟩ := List.cons.inj h
      obtain ⟨hkind, htext⟩ := Prod.mk.inj hspelling
      obtain rfl := Atom.eq_of_text_eq hkind (String.ofList_injective htext)
      exact ⟨hread', hrest⟩
  | unclosed _ _ htokens =>
      rw [spellings, htokens, List.map_cons] at h
      have hkind := (Prod.mk.inj (List.cons.inj h).1).1
      cases atom <;> cases hkind

theorem read?_eq_of_spellings (hc : c.skip = c) (hd : d.skip = d) (h : c.spellings = d.spellings) :
    Atom.read? c.rest = Atom.read? d.rest := by
  cases hread : Atom.read? c.rest with
  | some atom => exact (read?_of_spellings hc hd h hread).1.symm
  | none =>
      cases hread' : Atom.read? d.rest with
      | none => rfl
      | some atom =>
          rw [(read?_of_spellings hd hc h.symm hread').1] at hread
          cases hread

theorem spellings_eq_nil_iff (hc : c.skip = c) : c.spellings = [] ↔ c.rest = [] := by
  rw [spellings, List.map_eq_nil_iff]
  exact ⟨Expr.rest_eq_nil_of_tokens_eq_nil hc, tokens_of_rest_eq_nil⟩

end Cursor

namespace Expr

/-- Two results of reading that are the same in some view: what was read looks the same, or both
texts were rejected for the same reason, or both were too deep. -/
inductive Alike {α β : Type} (view : α → β) : Except Stop α → Except Stop α → Prop where
  | ok {a b : α} : view a = view b → Alike view (.ok a) (.ok b)
  | rejected {r r' : Rejection} :
      r.reason = r'.reason → Alike view (.error (.rejected r)) (.error (.rejected r'))
  | tooDeep : Alike view (.error (.fault .tooDeep)) (.error (.fault .tooDeep))

namespace Alike

variable {α β γ δ : Type} {view : α → β} {view' : γ → δ}

theorem eq_of_ok {a b : α} (h : Alike view (.ok a) (.ok b)) : view a = view b := by
  cases h with
  | ok hview => exact hview

theorem error {stop stop' : Stop} (h : Alike view (.error stop) (.error stop')) :
    Alike view' (.error stop) (.error stop') := by
  cases h with
  | rejected hreason => exact .rejected hreason
  | tooDeep => exact .tooDeep

theorem map {f g : α → γ} (hfg : ∀ a b, view a = view b → view' (f a) = view' (g b))
    {r r' : Except Stop α} (h : Alike view r r') : Alike view' (r.map f) (r'.map g) := by
  cases h with
  | ok hview => exact .ok (hfg _ _ hview)
  | rejected hreason => exact .rejected hreason
  | tooDeep => exact .tooDeep

end Alike

/-- An expression that was read and what is left, without any places. -/
def placeless (r : Expr × Cursor) : Expr × List (Token.Kind × String) :=
  (r.1.bare, r.2.spellings)

def placelessAll (r : List Expr × Cursor) : List Expr × List (Token.Kind × String) :=
  (bareAll r.1, r.2.spellings)

/-- A reader that makes the same of all tokens that say the same. -/
def Uniform (item : Reader Expr) : Prop :=
  ∀ c d, c.spellings = d.spellings → Alike placeless (forget (item c)) (forget (item d))

section Readers

open Token.Kind

variable {item : Reader Expr} {c d : Cursor}

theorem Alike.cons {e e' : Expr} (he : e.bare = e'.bare) {r r' : Except Stop (List Expr × Cursor)}
    (h : Alike placelessAll r r') :
    Alike placelessAll (r.map fun x => (e :: x.1, x.2)) (r'.map fun x => (e' :: x.1, x.2)) := by
  refine h.map fun a b hab => ?_
  obtain ⟨hes, hrest⟩ := Prod.mk.inj hab
  exact Prod.ext (congrArg₂ List.cons he hes) hrest

theorem readArguments_alike (hsound : Sound item) (hitem : Uniform item)
    (h : c.spellings = d.spellings) :
    Alike placelessAll (forget (readArguments item c)) (forget (readArguments item d)) := by
  -- the type of the result mentions the length, so the induction is on a number equal to it
  obtain ⟨n, hn⟩ : ∃ n, c.rest.length = n := ⟨_, rfl⟩
  induction n using Nat.strong_induction_on generalizing c d with
  | h n ih =>
      have hskip : c.skip.spellings = d.skip.spellings := by simpa using h
      have hclose := Cursor.head?_iff_of_spellings c.skip_skip d.skip_skip hskip ofMark?_closing
      rw [forget_readArguments, forget_readArguments]
      by_cases hend : c.skip.rest.head? = some ')'
      · rw [if_pos hend, if_pos (hclose.mp hend)]
        exact .ok (Prod.ext rfl
          (Cursor.head?_of_spellings c.skip_skip d.skip_skip hskip ofMark?_closing hend).2)
      · rw [if_neg hend, if_neg (mt hclose.mpr hend)]
        have hfirst := hitem c d h
        rcases hc : forget (item c) with stop | ⟨e, c₁⟩ <;>
          rcases hd : forget (item d) with stop' | ⟨e', d₁⟩ <;> rw [hc, hd] at hfirst
        · exact hfirst.error
        · cases hfirst
        · cases hfirst
        · obtain ⟨he, hrest⟩ := Prod.mk.inj hfirst.eq_of_ok
          have hlt : c₁.rest.length < n := hn ▸ property_of_forget hc
          have hc₁ := (hsound c c₁ e hc).1
          have hd₁ := (hsound d d₁ e' hd).1
          have hcomma := Cursor.head?_iff_of_spellings hc₁ hd₁ hrest ofMark?_comma
          have hclose₁ := Cursor.head?_iff_of_spellings hc₁ hd₁ hrest ofMark?_closing
          simp only [hcomma, hclose₁]
          split
          · rename_i hmark
            have hnext := (Cursor.head?_of_spellings hc₁ hd₁ hrest ofMark?_comma
              (hcomma.mpr hmark)).2
            exact (ih _ ((Cursor.length_next_lt (hcomma.mpr hmark)).trans hlt) hnext rfl).cons he
          · split
            · exact (ih _ hlt hrest rfl).cons he
            · exact .rejected rfl

theorem readApplications_alike (hsound : Sound item) (hitem : Uniform item) {f g : Expr}
    (hfg : f.bare = g.bare) (h : c.spellings = d.spellings) :
    Alike placeless (forget (readApplications item f c)) (forget (readApplications item g d)) := by
  obtain ⟨n, hn⟩ : ∃ n, c.rest.length = n := ⟨_, rfl⟩
  induction n using Nat.strong_induction_on generalizing c d f g with
  | h n ih =>
      have hskip : c.skip.spellings = d.skip.spellings := by simpa using h
      have hmark := Cursor.head?_iff_of_spellings c.skip_skip d.skip_skip hskip ofMark?_opening
      rw [forget_readApplications, forget_readApplications]
      by_cases hopen : c.skip.rest.head? = some '('
      · rw [if_pos hopen, if_pos (hmark.mp hopen)]
        have hnext :=
          (Cursor.head?_of_spellings c.skip_skip d.skip_skip hskip ofMark?_opening hopen).2
        have harguments := readArguments_alike hsound hitem hnext
        rcases hc : forget (readArguments item c.skip.next) with stop | ⟨es, c₁⟩ <;>
          rcases hd : forget (readArguments item d.skip.next) with stop' | ⟨es', d₁⟩ <;>
            rw [hc, hd] at harguments
        · exact harguments.error
        · cases harguments
        · cases harguments
        · obtain ⟨hes, hrest⟩ := Prod.mk.inj harguments.eq_of_ok
          have hlt : c₁.rest.length < n :=
            hn ▸ (property_of_forget hc).trans
              ((Cursor.length_next_lt hopen).trans_le c.length_skip_le)
          have happly : (apply f es f.position).bare = (apply g es' g.position).bare := by
            rw [bare, bare, hfg, hes]
          exact ih _ hlt happly hrest rfl
      · rw [if_neg hopen, if_neg (mt hmark.mpr hopen)]
        exact .ok (Prod.ext hfg hskip)

theorem bare_toExpr (atom : Atom) (p q : Position) :
    (atom.toExpr p).bare = (atom.toExpr q).bare := by
  cases atom <;> rfl

theorem uniform_readExpression (limit : Nat) : Uniform (readExpression limit) := by
  induction limit with
  | zero => exact fun _ _ _ => .tooDeep
  | succ limit ih =>
      intro c d h
      have hskip : c.skip.spellings = d.skip.spellings := by simpa using h
      have hread := Cursor.read?_eq_of_spellings c.skip_skip d.skip_skip hskip
      rw [forget_readExpression_succ, forget_readExpression_succ, ← hread]
      cases hatom : Atom.read? c.skip.rest with
      | none => exact .rejected rfl
      | some atom =>
          exact readApplications_alike (sound_readExpression limit) ih
            (bare_toExpr atom _ _)
            (Cursor.read?_of_spellings c.skip_skip d.skip_skip hskip hatom).2

end Readers

theorem parse_alike {source source' : String}
    (h : (Token.scan source).map Token.spelling = (Token.scan source').map Token.spelling)
    (limit : Nat) : Alike bare (parse limit source) (parse limit source') := by
  have hread := uniform_readExpression limit (.ofText source.toList) (.ofText source'.toList) h
  rw [parse_eq, parse_eq]
  rcases hc : forget (readExpression limit (.ofText source.toList)) with stop | ⟨e, c⟩ <;>
    rcases hd : forget (readExpression limit (.ofText source'.toList)) with stop' | ⟨e', d⟩ <;>
      rw [hc, hd] at hread
  · exact hread.error
  · cases hread
  · cases hread
  · obtain ⟨he, hrest⟩ := Prod.mk.inj hread.eq_of_ok
    have hc' := (sound_readExpression limit _ c e hc).1
    have hd' := (sound_readExpression limit _ d e' hd).1
    have hempty : c.rest = [] ↔ d.rest = [] := by
      rw [← Cursor.spellings_eq_nil_iff hc', ← Cursor.spellings_eq_nil_iff hd', hrest]
    simp only [List.isEmpty_iff, hempty]
    split
    · exact .ok he
    · exact .rejected rfl

end Expr

namespace Cursor

theorem tokens_blank {a : Char} (h : Text.isBlank a = true) (p : Position) (rest : List Char) :
    (Cursor.mk p (a :: rest)).tokens = (Cursor.mk (p.advance a) rest).tokens := by
  have hlayout : layout false (a :: rest) = a :: layout false rest :=
    @layout_blanks [a] (by simpa using h) rest
  have hskip : (Cursor.mk p (a :: rest)).skip = (Cursor.mk (p.advance a) rest).skip := by
    simp [skip, move, hlayout]
  rw [← tokens_skip, hskip, tokens_skip]

theorem tokens_unclosed {body : List Char} (h : '"' ∉ body) (p : Position) :
    (Cursor.mk p ('"' :: body)).tokens = [⟨.unclosed, String.ofList ('"' :: body), p⟩] := by
  have hread : Atom.read? ('"' :: body) = none := by
    simp [Atom.read?_quote, Atom.string?, h]
  cases front (skip_of_layout_eq_nil (c := ⟨p, '"' :: body⟩) rfl) with
  | finish hrest _ => cases hrest
  | mark a kind hhead hmark _ =>
      cases hhead
      cases hmark
  | atom atom hread' _ =>
      rw [hread] at hread'
      cases hread'
  | unclosed _ _ htokens => exact htokens

end Cursor

namespace Token

def spaced (ts : List Token) : List Char :=
  [' '].intercalate (ts.map (·.text.toList))

theorem spaced_cons (t : Token) (ts : List Token) :
    ∃ rest, spaced (t :: ts) = t.text.toList ++ rest ∧ Atom.Boundary rest ∧
      ∀ p, ∃ q, (Cursor.mk p rest).spellings = (Cursor.mk q (spaced ts)).spellings := by
  rcases ts with _ | ⟨u, ts⟩
  · exact ⟨[], by simp [spaced], Atom.boundary_nil, fun p => ⟨p, rfl⟩⟩
  · refine ⟨' ' :: spaced (u :: ts), by simp [spaced], Atom.boundary_cons rfl _, fun p => ?_⟩
    refine ⟨p.advance ' ', ?_⟩
    rw [Cursor.spellings, Cursor.tokens_blank rfl, Cursor.spellings]

/-- Tokens that are written with single blanks between them are the tokens of that text. -/
theorem spellings_spaced {ts : List Token} (h : Written ts) (p : Position) :
    (Cursor.mk p (spaced ts)).spellings = ts.map spelling := by
  induction h generalizing p with
  | nil => simp [Cursor.spellings, Cursor.tokens_of_rest_eq_nil, spaced]
  | @mark t ts a hmark htext _ ih =>
      obtain ⟨rest, hspaced, -, hrest⟩ := spaced_cons t ts
      obtain ⟨q, hq⟩ := hrest (p.advance a)
      rw [hspaced, htext, String.toList_ofList, Cursor.spellings, List.singleton_append,
        Cursor.tokens_mark hmark, List.map_cons, List.map_cons, ← Cursor.spellings, hq, ih,
        spelling, spelling, htext]
  | @atom t ts atom hvalid hspelling _ ih =>
      obtain ⟨rest, hspaced, hboundary, hrest⟩ := spaced_cons t ts
      obtain ⟨q, hq⟩ := hrest (p.after atom.text)
      have htext : t.text = String.ofList atom.text := (Prod.mk.inj hspelling).2
      rw [hspaced, htext, String.toList_ofList, Cursor.spellings,
        Cursor.tokens_atom hvalid p hboundary,
        List.map_cons, List.map_cons, ← Cursor.spellings, hq, ih, hspelling]
      rfl
  | @unclosed t body hspelling hbody =>
      have htext : t.text = String.ofList ('"' :: body) := (Prod.mk.inj hspelling).2
      have hspaced : spaced [t] = '"' :: body := by simp [spaced, htext]
      rw [hspaced, Cursor.spellings, Cursor.tokens_unclosed hbody, List.map_singleton,
        List.map_singleton, hspelling]
      rfl

end Token

/-- Layout carries no meaning. The tokens of a text, written with single blanks between them, are
of the same kinds and characters again; and texts whose tokens are of the same kinds and
characters are read alike: as expressions that differ in their positions at most, or both not, for
the same reason. -/
theorem layout_free_reading (source : String) :
    (Token.scan (" ".intercalate ((Token.scan source).map (·.text)))).map Token.spelling =
      (Token.scan source).map Token.spelling ∧
    (∀ limit, Expr.Alike Expr.bare
      (Expr.parse limit (" ".intercalate ((Token.scan source).map (·.text))))
      (Expr.parse limit source)) ∧
    ∀ other, (Token.scan other).map Token.spelling = (Token.scan source).map Token.spelling →
      ∀ limit, Expr.Alike Expr.bare (Expr.parse limit other) (Expr.parse limit source) := by
  have hspaced : (Token.scan (" ".intercalate ((Token.scan source).map (·.text)))).map
      Token.spelling = (Token.scan source).map Token.spelling := by
    have hwritten := (Cursor.ofText source.toList).written_tokens
    rw [Cursor.tokens_ofText] at hwritten
    have hspellings := Token.spellings_spaced hwritten .start
    rw [← hspellings, ← Cursor.tokens_ofText, String.toList_intercalate, Token.spaced, List.map_map]
    rfl
  exact ⟨hspaced, Expr.parse_alike hspaced, fun other hother => Expr.parse_alike hother⟩

theorem layout_free_reading_comment :
    (Token.scan "f(a, 12)").map Token.spelling =
      (Token.scan "f ( a,# a(\n12 )").map Token.spelling ∧
    Expr.Alike Expr.bare (Expr.parse 9 "f(a, 12)") (Expr.parse 9 "f ( a,# a(\n12 )") := by
  have h : (Token.scan "f(a, 12)").map Token.spelling =
      (Token.scan "f ( a,# a(\n12 )").map Token.spelling := by decide +kernel
  exact ⟨h, (layout_free_reading _).2.2 _ h 9⟩

end Egg
