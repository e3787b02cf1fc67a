import Egg.Proofs.GrammarReader
import Egg.Proofs.WrittenToken

namespace Egg

/-- A program before it is written: atoms that can be written, and applications of any term to any
number of terms. -/
inductive Term where
  | leaf (atom : Atom) (valid : atom.Valid)
  | apply (operator : Term) (arguments : List Term)

namespace Term

mutual

def text : Term → List Char
  | leaf atom _ => atom.text
  | apply operator arguments => operator.text ++ '(' :: (textAll arguments ++ [')'])

def textAll : List Term → List Char
  | [] => []
  | term :: terms => term.text ++ textFurther terms

def textFurther : List Term → List Char
  | [] => []
  | term :: terms => ',' :: (term.text ++ textFurther terms)

end

theorem textAll_eq_intercalate (terms : List Term) :
    textAll terms = [','].intercalate (terms.map text) := by
  have hfurther : ∀ term terms,
      text term ++ textFurther terms = [','].intercalate ((term :: terms).map text) := by
    intro term terms
    induction terms generalizing term with
    | nil => simp [textFurther]
    | cons next terms ih => simp [textFurther, ih]
  cases terms with
  | nil => simp [textAll]
  | cons term terms => rw [textAll, hfurther]

mutual

/-- The expression that a term stands for, without positions. -/
def expr : Term → Expr
  | leaf (.string body) _ => .literal (.string (String.ofList body)) none
  | leaf (.number digits) _ => .literal (.number (.ofDigits digits)) none
  | leaf (.word name) _ => .name (String.ofList name) .source none
  | apply operator arguments => .apply operator.expr (exprAll arguments) none

def exprAll : List Term → List Expr
  | [] => []
  | term :: terms => term.expr :: exprAll terms

end

theorem bare_toExpr_leaf (atom : Atom) (valid : atom.Valid) (p : Position) :
    (atom.toExpr p).bare = (leaf atom valid).expr := by
  cases atom <;> simp only [Atom.toExpr, Expr.bare, expr]

end Term

def Phrase.bare : Phrase → Phrase
  | .expression e => .expression e.bare
  | .suffixes f e => .suffixes f.bare e.bare
  | .arguments es => .arguments (Expr.bareAll es)
  | .furtherArguments es => .furtherArguments (Expr.bareAll es)

namespace Phrase

variable {phrase : Phrase} {x : Expr} {xs : List Expr}

theorem bare_eq_expression :
    phrase.bare = .expression x ↔ ∃ e, phrase = .expression e ∧ e.bare = x := by
  cases phrase <;> simp [bare]

theorem bare_eq_arguments :
    phrase.bare = .arguments xs ↔ ∃ es, phrase = .arguments es ∧ Expr.bareAll es = xs := by
  cases phrase <;> simp [bare]

theorem bare_eq_furtherArguments :
    phrase.bare = .furtherArguments xs ↔
      ∃ es, phrase = .furtherArguments es ∧ Expr.bareAll es = xs := by
  cases phrase <;> simp [bare]

end Phrase

namespace Derives

variable {e : Expr} {es : List Expr} {l r : Token} {ts us : List Token}

theorem suffixes_snoc {f : Expr} (h : Derives (.suffixes f e) ts) (hl : l.kind = .opening)
    (hes : Derives (.arguments es) us) (hr : r.kind = .closing) :
    Derives (.suffixes f (.apply e es e.position)) (ts ++ l :: (us ++ [r])) := by
  generalize hphrase : Phrase.suffixes f e = phrase at h
  induction h generalizing f with
  | noSuffix =>
      cases hphrase
      exact .suffix hl hes hr .noSuffix
  | suffix hl' hes' hr' _ _ ih =>
      cases hphrase
      simpa using Derives.suffix hl' hes' hr' (ih rfl)
  | _ => cases hphrase

theorem expression_apply (h : Derives (.expression e) ts) (hl : l.kind = .opening)
    (hes : Derives (.arguments es) us) (hr : r.kind = .closing) :
    Derives (.expression (.apply e es e.position)) (ts ++ l :: (us ++ [r])) := by
  cases h with
  | expression hleaf hsuffixes =>
      exact .expression hleaf (hsuffixes.suffixes_snoc hl hes hr)

end Derives

/-- That some characters are read as a phrase wherever they stand before a boundary: the tokens
that they make derive it, and the tokens behind them are those of what follows. -/
def Writes (text : List Char) (phrase : Phrase) : Prop :=
  ∀ p rest, Atom.Boundary rest → ∃ ts q phrase',
    (Cursor.mk p (text ++ rest)).tokens = ts ++ (Cursor.mk q rest).tokens ∧
      Derives phrase' ts ∧ phrase'.bare = phrase

namespace Writes

variable {text text' : List Char} {x : Expr} {xs : List Expr}

theorem leaf {atom : Atom} (valid : atom.Valid) :
    Writes atom.text (.expression (Term.leaf atom valid).expr) := by
  intro p rest hrest
  refine ⟨[⟨.ofAtom atom, String.ofList atom.text, p⟩], p.after atom.text,
    .expression (atom.toExpr p), Cursor.tokens_atom valid p hrest, ?_, ?_⟩
  · exact .expression (Token.leaf?_ofAtom atom p) .noSuffix
  · rw [Phrase.bare, Term.bare_toExpr_leaf]

theorem apply (h : Writes text (.expression x)) (hall : Writes text' (.arguments xs)) :
    Writes (text ++ '(' :: (text' ++ [')'])) (.expression (.apply x xs none)) := by
  intro p rest hrest
  obtain ⟨ts, q, _, htokens, hderives, hbare⟩ :=
    h p ('(' :: (text' ++ ')' :: rest)) (Atom.boundary_cons rfl _)
  obtain ⟨e, rfl, he⟩ := Phrase.bare_eq_expression.mp hbare
  obtain ⟨us, q', _, htokens', hderives', hbare'⟩ :=
    hall (q.advance '(') (')' :: rest) (Atom.boundary_cons rfl _)
  obtain ⟨es, rfl, hes⟩ := Phrase.bare_eq_arguments.mp hbare'
  rw [Cursor.tokens_mark Token.Kind.ofMark?_opening, htokens',
    Cursor.tokens_mark Token.Kind.ofMark?_closing] at htokens
  have happly := hderives.expression_apply (l := ⟨.opening, "(", q⟩) rfl hderives'
    (r := ⟨.closing, ")", q'⟩) rfl
  refine ⟨_, q'.advance ')', .expression (.apply e es e.position), ?_, happly, ?_⟩
  · simpa using htokens
  · rw [Phrase.bare, Expr.bare, he, hes]

theorem noArgument : Writes [] (.arguments []) :=
  fun p _ _ => ⟨[], p, .arguments [], rfl, .noArgument, rfl⟩

theorem lastArgument : Writes [] (.furtherArguments []) :=
  fun p _ _ => ⟨[], p, .furtherArguments [], rfl, .lastArgument, rfl⟩

theorem append (h : Writes text (.expression x)) (hall : Writes text' (.furtherArguments xs))
    (hboundary : ∀ rest, Atom.Boundary rest → Atom.Boundary (text' ++ rest)) (p : Position)
    {rest : List Char} (hrest : Atom.Boundary rest) :
    ∃ ts us q e es, (Cursor.mk p (text ++ text' ++ rest)).tokens =
        ts ++ us ++ (Cursor.mk q rest).tokens ∧
      Derives (.expression e) ts ∧ Derives (.furtherArguments es) us ∧ e.bare = x ∧
      Expr.bareAll es = xs := by
  obtain ⟨ts, q, _, htokens, hderives, hbare⟩ := h p (text' ++ rest) (hboundary rest hrest)
  obtain ⟨e, rfl, he⟩ := Phrase.bare_eq_expression.mp hbare
  obtain ⟨us, q', _, htokens', hderives', hbare'⟩ := hall q rest hrest
  obtain ⟨es, rfl, hes⟩ := Phrase.bare_eq_furtherArguments.mp hbare'
  refine ⟨ts, us, q', e, es, ?_, hderives, hderives', he, hes⟩
  rw [List.append_assoc, htokens, htokens', List.append_assoc]

end Writes

namespace Term

theorem boundary_textFurther (terms : List Term) {rest : List Char} (hrest : Atom.Boundary rest) :
    Atom.Boundary (textFurther terms ++ rest) := by
  cases terms with
  | nil => simpa [textFurther] using hrest
  | cons term terms =>
      rw [textFurther]
      exact Atom.boundary_cons rfl _

mutual

theorem writes_text : ∀ term : Term, Writes term.text (.expression term.expr)
  | leaf atom valid => .leaf valid
  | apply operator arguments => by
      rw [text, expr]
      exact .apply operator.writes_text (writes_textAll arguments)

theorem writes_textAll : ∀ terms : List Term, Writes (textAll terms) (.arguments (exprAll terms))
  | [] => .noArgument
  | term :: terms => by
      intro p rest hrest
      obtain ⟨ts, us, q, e, es, htokens, he, hes, hbare, hbareAll⟩ :=
        term.writes_text.append (writes_textFurther terms)
          (fun _ => boundary_textFurther terms) p hrest
      refine ⟨ts ++ us, q, .arguments (e :: es), htokens, .argument he hes, ?_⟩
      rw [Phrase.bare, Expr.bareAll, exprAll, hbare, hbareAll]

theorem writes_textFurther :
    ∀ terms : List Term, Writes (textFurther terms) (.furtherArguments (exprAll terms))
  | [] => .lastArgument
  | term :: terms => by
      intro p rest hrest
      obtain ⟨ts, us, q, e, es, htokens, he, hes, hbare, hbareAll⟩ :=
        term.writes_text.append (writes_textFurther terms)
          (fun _ => boundary_textFurther terms) (p.advance ',') hrest
      refine ⟨⟨.comma, ",", p⟩ :: (ts ++ us), q, .furtherArguments (e :: es), ?_,
        .furtherArgument rfl he hes, ?_⟩
      · rw [textFurther, List.cons_append, Cursor.tokens_mark Token.Kind.ofMark?_comma, htokens]
        rfl
      · rw [Phrase.bare, Expr.bareAll, exprAll, hbare, hbareAll]

end

theorem derives_text (term : Term) :
    ∃ e, e.bare = term.expr ∧ Derives (.expression e) (Token.scan (String.ofList term.text)) := by
  obtain ⟨ts, q, _, htokens, hderives, hbare⟩ := term.writes_text .start [] Atom.boundary_nil
  obtain ⟨e, rfl, he⟩ := Phrase.bare_eq_expression.mp hbare
  refine ⟨e, he, ?_⟩
  rw [List.append_nil, @Cursor.tokens_of_rest_eq_nil ⟨q, []⟩ rfl, List.append_nil] at htokens
  rw [← Cursor.tokens_ofText, String.toList_ofList, Cursor.ofText, htokens]
  exact hderives

theorem exists_exprAll {es : List Expr} (h : ∀ e ∈ es, ∃ term : Term, e.bare = term.expr) :
    ∃ terms, Expr.bareAll es = exprAll terms := by
  induction es with
  | nil => exact ⟨[], rfl⟩
  | cons e es ih =>
      obtain ⟨hfirst, hrest⟩ := List.forall_mem_cons.mp h
      obtain ⟨term, hterm⟩ := hfirst
      obtain ⟨terms, hterms⟩ := ih hrest
      exact ⟨term :: terms, by rw [Expr.bareAll, exprAll, hterm, hterms]⟩

end Term

namespace Token

theorem Written.valid_of_leaf? {ts : List Token} (h : Written ts) {t : Token} (ht : t ∈ ts)
    {f : Expr} (hleaf : t.leaf? = some f) :
    ∃ atom : Atom, atom.Valid ∧ t.spelling = (.ofAtom atom, String.ofList atom.text) ∧
      f = atom.toExpr t.start := by
  induction h with
  | nil => cases ht
  | mark hmark _ _ ih =>
      rcases List.mem_cons.mp ht with rfl | ht
      · rcases Kind.ofMark?_cases hmark with ⟨-, hkind⟩ | ⟨-, hkind⟩ | ⟨-, hkind⟩ <;>
          simp [leaf?, hkind] at hleaf
      · exact ih ht
  | @atom u ts atom hvalid hspelling _ ih =>
      rcases List.mem_cons.mp ht with rfl | ht
      · obtain ⟨hkind, htext⟩ := Prod.mk.inj hspelling
        obtain ⟨kind, characters, start⟩ := t
        subst hkind htext
        rw [leaf?_ofAtom] at hleaf
        exact ⟨atom, hvalid, rfl, (Option.some.inj hleaf).symm⟩
      · exact ih ht
  | unclosed hspelling _ =>
      obtain rfl := List.mem_singleton.mp ht
      have hkind : t.kind = .unclosed := (Prod.mk.inj hspelling).1
      simp [leaf?, hkind] at hleaf

end Token

namespace Expr

theorem exists_term_of_parse {limit : Nat} {source : String} {e : Expr}
    (h : parse limit source = .ok e) : ∃ term : Term, e.bare = term.expr := by
  refine (derives_of_parse h).all (P := fun e => ∃ term : Term, e.bare = term.expr) ?_ ?_
  · intro t ht f hleaf
    have hwritten := (Cursor.ofText source.toList).written_tokens
    rw [Cursor.tokens_ofText] at hwritten
    obtain ⟨atom, hvalid, -, rfl⟩ := hwritten.valid_of_leaf? ht hleaf
    exact ⟨.leaf atom hvalid, Term.bare_toExpr_leaf atom hvalid _⟩
  · rintro f es ⟨operator, hf⟩ hes
    obtain ⟨arguments, harguments⟩ := Term.exists_exprAll hes
    exact ⟨.apply operator arguments, by rw [bare, Term.expr, hf, harguments]⟩

/-- Reading undoes writing. The text of a term is read as the expression that the term stands for,
positions aside, within the nesting limit, which matters only to texts that open as many
parentheses; and every expression that is read from any text stands for a term. -/
theorem parse_text_term :
    (∀ term : Term, ∃ e, e.bare = term.expr ∧
      (∀ limit, parse limit (String.ofList term.text) ≠ .error (.fault .tooDeep) →
        parse limit (String.ofList term.text) = .ok e) ∧
      ∀ limit, Token.openings (Token.scan (String.ofList term.text)) < limit →
        parse limit (String.ofList term.text) = .ok e) ∧
    ∀ limit source e, parse limit source = .ok e → ∃ term : Term, e.bare = term.expr := by
  refine ⟨fun term => ?_, fun _ _ _ => exists_term_of_parse⟩
  obtain ⟨e, hbare, hderives⟩ := term.derives_text
  have hread : ∀ limit, parse limit (String.ofList term.text) ≠ .error (.fault .tooDeep) →
      parse limit (String.ofList term.text) = .ok e :=
    fun limit hlimit => (parse_of_derives hderives limit).resolve_left hlimit
  refine ⟨e, hbare, hread, fun limit hlt => hread limit fun hdeep => ?_⟩
  rcases parse_fails hdeep with ⟨_, hrejected⟩ | ⟨-, hle⟩
  · cases hrejected
  · omega

/-- A call of the result of a call, with a word that starts with digits. -/
def doubleCall : Term :=
  .apply
    (.apply (.leaf (.word ['1', '2', 'a']) (by decide))
      [.leaf (.string ['x', '(', ' ']) (by decide), .leaf (.number ['0', '7']) (by decide)])
    [.leaf (.word ['b', '#']) (by decide)]

theorem parse_text_term_doubleCall :
    String.ofList doubleCall.text = "12a(\"x( \",07)(b#)" ∧
      Token.openings (Token.scan (String.ofList doubleCall.text)) < 9 ∧
      ∃ e, parse 9 (String.ofList doubleCall.text) = .ok e ∧ e.bare = doubleCall.expr ∧
        ∃ term : Term, e.bare = term.expr := by
  have hopenings : Token.openings (Token.scan (String.ofList doubleCall.text)) < 9 := by
    decide +kernel
  obtain ⟨e, hbare, -, hread⟩ := parse_text_term.1 doubleCall
  have hok := hread 9 hopenings
  exact ⟨by decide +kernel, hopenings, e, hok, hbare, parse_text_term.2 9 _ e hok⟩

end Expr

end Egg
