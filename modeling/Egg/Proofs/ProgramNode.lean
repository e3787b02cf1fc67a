import Egg.Proofs.GrammarReader
import Egg.Proofs.SpecialShape
import Egg.Proofs.Tiling

namespace Egg

theorem Token.kind_of_leaf? {t : Token} {f : Expr} (h : t.leaf? = some f) :
    t.kind = .string ∨ t.kind = .number ∨ t.kind = .word := by
  rw [leaf?] at h
  split at h
  · rename_i hkind
    exact .inl hkind
  · rename_i hkind
    exact .inr (.inl hkind)
  · rename_i hkind
    exact .inr (.inr hkind)
  · cases h

theorem Token.word_of_leaf? {t : Token} {f : Expr} (h : t.leaf? = some f) {x : String}
    (hword : f.word? = some x) : t.kind = .word ∧ t.text = x := by
  rw [leaf?] at h
  split at h
  · cases h
    cases hword
  · cases h
    cases hword
  · rename_i hkind
    cases h
    exact ⟨hkind, Option.some.inj hword⟩
  · cases h

namespace Expr

/-- The expressions that an expression is made up of, among them itself. -/
inductive Contains (e : Expr) : Expr → Prop where
  | self : Contains e e
  | operator {f : Expr} {es : List Expr} {p : Option Position} :
      Contains e (.apply f es p) → Contains e f
  | argument {f x : Expr} {es : List Expr} {p : Option Position} :
      Contains e (.apply f es p) → x ∈ es → Contains e x

/-- The literal or name that an expression starts with. -/
def leaf : Expr → Expr
  | .apply operator _ _ => operator.leaf
  | e => e

namespace Contains

variable {e x f : Expr} {es : List Expr} {p : Option Position}

theorem trans {y : Expr} (h : e.Contains x) (hx : x.Contains y) : e.Contains y := by
  induction hx with
  | self => exact h
  | operator _ ih => exact ih.operator
  | argument _ hmem ih => exact ih.argument hmem

theorem eq_of_leaf (h : e.Contains x) (hleaf : ∀ f es p, e ≠ .apply f es p) : x = e := by
  induction h with
  | self => rfl
  | operator _ ih | argument _ _ ih => exact absurd ih.symm (hleaf _ _ _)

theorem of_apply (h : (apply f es p).Contains x) :
    x = apply f es p ∨ f.Contains x ∨ ∃ e ∈ es, e.Contains x := by
  induction h with
  | self => exact .inl rfl
  | operator _ ih =>
      rcases ih with heq | hf | ⟨e, he, hx⟩
      · cases heq
        exact .inr (.inl .self)
      · exact .inr (.inl hf.operator)
      · exact .inr (.inr ⟨e, he, hx.operator⟩)
  | argument _ hmem ih =>
      rcases ih with heq | hf | ⟨e, he, hx⟩
      · cases heq
        exact .inr (.inr ⟨_, hmem, .self⟩)
      · exact .inr (.inl (hf.argument hmem))
      · exact .inr (.inr ⟨e, he, hx.argument hmem⟩)

end Contains

/-- That an expression starts with one of some tokens, at the place of which it stands. -/
def Starts (ts : List Token) (e : Expr) : Prop :=
  ∃ t ∈ ts, t.leaf? = some e.leaf ∧ e.position = some t.start

theorem starts_of_leaf? {ts : List Token} {t : Token} {f : Expr} (ht : t ∈ ts)
    (hleaf : t.leaf? = some f) : f.Starts ts ∧ ∀ g es p, f ≠ .apply g es p := by
  have hself : f.leaf = f ∧ f.position = some t.start ∧ ∀ g es p, f ≠ .apply g es p := by
    rw [Token.leaf?] at hleaf
    split at hleaf <;> cases hleaf <;> simp [leaf, position]
  obtain ⟨hfirst, hposition, hne⟩ := hself
  exact ⟨⟨t, ht, by rw [hfirst, hleaf], hposition⟩, hne⟩

theorem starts_of_parse {limit : Nat} {source : String} {e x : Expr}
    (h : parse limit source = .ok e) (hx : e.Contains x) : x.Starts (Token.scan source) := by
  refine (derives_of_parse h).all
    (P := fun e => ∀ x, e.Contains x → x.Starts (Token.scan source)) ?_ ?_ x hx
  · intro t ht f hleaf x hx
    obtain ⟨hstarts, hne⟩ := starts_of_leaf? ht hleaf
    rw [hx.eq_of_leaf hne]
    exact hstarts
  · intro f es hf hes x hx
    rcases hx.of_apply with rfl | hx | ⟨e, he, hx⟩
    · exact hf f .self
    · exact hf x hx
    · exact hes e he x hx

theorem not_contains_foreign {limit : Nat} {source : String} {e : Expr}
    (h : parse limit source = .ok e) (thing : Foreign) : ¬ e.Contains (.foreign thing) := by
  intro hx
  obtain ⟨t, -, -, hposition⟩ := starts_of_parse h hx
  cases hposition

end Expr

end Egg
