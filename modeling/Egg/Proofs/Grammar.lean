import Egg.Proofs.TokenStream

/-!
The grammar of programs over tokens:

    expression ::= atom suffix*
    atom       ::= STRING | NUMBER | WORD
    suffix     ::= "(" arguments ")"
    arguments  ::= empty | expression ("," expression)* [","]

Each phrase is derived together with what it stands for. Suffixes nest to the left.
-/

namespace Egg

/-- The literal or name that a token stands for. A string token stands for what is between its
quotes. -/
def Token.leaf? (t : Token) : Option Expr :=
  match t.kind with
  | .string => some (.literal (.string (String.ofList t.text.toList.tail.dropLast)) (some t.start))
  | .number => some (.literal (.number (.ofDigits t.text.toList)) (some t.start))
  | .word => some (.name t.text .source (some t.start))
  | _ => none

/-- A phrase of the grammar with its meaning. Suffixes turn the operator in front of them into a
result; further arguments are what may follow an argument inside its parentheses. -/
inductive Phrase where
  | expression (e : Expr)
  | suffixes (operator result : Expr)
  | arguments (es : List Expr)
  | furtherArguments (es : List Expr)

/-- The token lists that make up a phrase. -/
inductive Derives : Phrase → List Token → Prop where
  | expression {t : Token} {f e : Expr} {ts : List Token} :
      t.leaf? = some f → Derives (.suffixes f e) ts → Derives (.expression e) (t :: ts)
  | noSuffix {f : Expr} : Derives (.suffixes f f) []
  | suffix {f e : Expr} {es : List Expr} {l r : Token} {us ts : List Token} :
      l.kind = .opening → Derives (.arguments es) us → r.kind = .closing →
      Derives (.suffixes (.apply f es f.position) e) ts →
      Derives (.suffixes f e) (l :: (us ++ r :: ts))
  | noArgument : Derives (.arguments []) []
  | argument {e : Expr} {es : List Expr} {ts us : List Token} :
      Derives (.expression e) ts → Derives (.furtherArguments es) us →
      Derives (.arguments (e :: es)) (ts ++ us)
  | lastArgument : Derives (.furtherArguments []) []
  | trailingComma {c : Token} : c.kind = .comma → Derives (.furtherArguments []) [c]
  | furtherArgument {c : Token} {e : Expr} {es : List Expr} {ts us : List Token} :
      c.kind = .comma → Derives (.expression e) ts → Derives (.furtherArguments es) us →
      Derives (.furtherArguments (e :: es)) (c :: (ts ++ us))

namespace Derives

theorem furtherArguments_of_arguments {c : Token} {es : List Expr} {ts : List Token}
    (hcomma : c.kind = .comma) (h : Derives (.arguments es) ts) :
    Derives (.furtherArguments es) (c :: ts) := by
  cases h with
  | noArgument => exact .trailingComma hcomma
  | argument he hes => exact .furtherArgument hcomma he hes

theorem kind_ne_unclosed {p : Phrase} {ts : List Token} (h : Derives p ts) :
    ∀ t ∈ ts, t.kind ≠ .unclosed := by
  induction h with
  | @expression t f e ts hleaf _ ih =>
      intro u hu
      rcases List.mem_cons.mp hu with rfl | hu
      · intro hkind
        simp [Token.leaf?, hkind] at hleaf
      · exact ih u hu
  | noSuffix => simp
  | suffix hl _ hr _ ihArguments ihSuffixes =>
      intro u hu
      simp only [List.mem_cons, List.mem_append] at hu
      rcases hu with rfl | hu | rfl | hu
      · simp [hl]
      · exact ihArguments u hu
      · simp [hr]
      · exact ihSuffixes u hu
  | noArgument => simp
  | argument _ _ ihFirst ihFurther =>
      intro u hu
      rcases List.mem_append.mp hu with hu | hu
      · exact ihFirst u hu
      · exact ihFurther u hu
  | lastArgument => simp
  | trailingComma hc => simp [hc]
  | furtherArgument hc _ _ ihFirst ihFurther =>
      intro u hu
      simp only [List.mem_cons, List.mem_append] at hu
      rcases hu with rfl | hu | hu
      · simp [hc]
      · exact ihFirst u hu
      · exact ihFurther u hu

end Derives

/-- That a property holds of the expressions in a phrase; of suffixes, that they keep it. -/
def Phrase.All (P : Expr → Prop) : Phrase → Prop
  | .expression e => P e
  | .suffixes f e => P f → P e
  | .arguments es | .furtherArguments es => ∀ e ∈ es, P e

/-- What holds of the leaves that tokens stand for, and is kept by application, holds of every
expression that the tokens make up. -/
theorem Derives.all {P : Expr → Prop} {p : Phrase} {ts : List Token} (h : Derives p ts)
    (hleaf : ∀ t ∈ ts, ∀ f, t.leaf? = some f → P f)
    (happly : ∀ f es, P f → (∀ e ∈ es, P e) → P (.apply f es f.position)) : p.All P := by
  induction h with
  | expression ht _ ih =>
      obtain ⟨hfirst, hrest⟩ := List.forall_mem_cons.mp hleaf
      exact ih hrest (hfirst _ ht)
  | noSuffix => exact fun hf => hf
  | suffix _ _ _ _ ihArguments ihSuffixes =>
      have harguments := ihArguments fun t ht => hleaf t (by simp [ht])
      have hsuffixes := ihSuffixes fun t ht => hleaf t (by simp [ht])
      exact fun hf => hsuffixes (happly _ _ hf harguments)
  | noArgument | lastArgument | trailingComma => exact fun _ he => absurd he List.not_mem_nil
  | argument _ _ ihFirst ihFurther =>
      have hfirst := ihFirst fun t ht => hleaf t (by simp [ht])
      have hfurther := ihFurther fun t ht => hleaf t (by simp [ht])
      exact List.forall_mem_cons.mpr ⟨hfirst, hfurther⟩
  | furtherArgument _ _ _ ihFirst ihFurther =>
      have hfirst := ihFirst fun t ht => hleaf t (by simp [ht])
      have hfurther := ihFurther fun t ht => hleaf t (by simp [ht])
      exact List.forall_mem_cons.mpr ⟨hfirst, hfurther⟩

theorem Token.leaf?_ofAtom (atom : Atom) (p : Position) :
    Token.leaf? ⟨.ofAtom atom, String.ofList atom.text, p⟩ = some (atom.toExpr p) := by
  cases atom with
  | string body => simp [Token.leaf?, Token.Kind.ofAtom, Atom.text, Atom.toExpr]
  | number digits => simp [Token.leaf?, Token.Kind.ofAtom, Atom.text, Atom.toExpr]
  | word name => simp [Token.leaf?, Token.Kind.ofAtom, Atom.text, Atom.toExpr]

theorem Cursor.read?_of_tokens {c : Cursor} {t : Token} {ts : List Token} {f : Expr}
    (hskip : c.skip = c) (htokens : c.tokens = t :: ts) (hleaf : t.leaf? = some f) :
    ∃ atom, Atom.read? c.rest = some atom ∧ atom.toExpr c.position = f ∧
      (c.move atom.text).tokens = ts := by
  cases front hskip with
  | finish _ h => rw [h] at htokens; cases htokens
  | mark a kind _ hmark h =>
      rw [h] at htokens
      cases htokens
      rcases Token.Kind.ofMark?_cases hmark with ⟨-, rfl⟩ | ⟨-, rfl⟩ | ⟨-, rfl⟩ <;>
        cases hleaf
  | atom atom hread h =>
      rw [h] at htokens
      cases htokens
      rw [Token.leaf?_ofAtom] at hleaf
      exact ⟨atom, hread, Option.some.inj hleaf, rfl⟩
  | unclosed _ _ h =>
      rw [h] at htokens
      cases htokens
      cases hleaf

end Egg
