import Egg.Proofs.Continuation
import Egg.Proofs.GrammarReader
import Egg.Session.Basic
import Mathlib.Algebra.BigOperators.Group.List.Basic
import Mathlib.Algebra.Ring.Int.Defs

namespace Egg

namespace Token

/-- What a token adds to the depth of the parentheses. -/
def Kind.weight : Kind → Int
  | .opening => 1
  | .closing => -1
  | _ => 0

@[simp] theorem Kind.weight_opening : Kind.opening.weight = 1 := rfl

@[simp] theorem Kind.weight_closing : Kind.closing.weight = -1 := rfl

@[simp] theorem Kind.weight_comma : Kind.comma.weight = 0 := rfl

theorem depth_eq_foldl (ts : List Token) :
    depth ts = ts.foldl (fun n t => n + t.kind.weight) 0 := by
  unfold depth
  congr 1
  funext n t
  cases t.kind <;> simp [Kind.weight, sub_eq_add_neg]

theorem depth_eq_sum (ts : List Token) : depth ts = (ts.map fun t => t.kind.weight).sum := by
  rw [depth_eq_foldl, List.sum_eq_foldl, List.foldl_map]

@[simp] theorem depth_nil : depth [] = 0 := rfl

@[simp] theorem depth_cons (t : Token) (ts : List Token) :
    depth (t :: ts) = t.kind.weight + depth ts := by
  simp [depth_eq_sum]

@[simp] theorem depth_append (ts us : List Token) : depth (ts ++ us) = depth ts + depth us := by
  simp [depth_eq_sum]

theorem Kind.weight_of_isAtom {kind : Kind} (h : kind.isAtom = true) : kind.weight = 0 := by
  cases kind with
  | opening | closing => cases h
  | _ => rfl

theorem isAtom_iff_leaf? {t : Token} : t.kind.isAtom = true ↔ ∃ f, t.leaf? = some f := by
  unfold leaf?
  cases t.kind <;> simp [Kind.isAtom]

namespace Continues

theorem of_cons {ts us : List Token} {u : Token} (h : Continues ts (u :: us))
    (hu : u.kind.isAtom = false) : ts = [] ∨ ∃ ts', ts = u :: ts' ∧ Continues ts' us := by
  cases h with
  | nil => exact .inl rfl
  | cons h => exact .inr ⟨_, rfl, h⟩
  | atom _ hatom =>
      rw [hu] at hatom
      cases hatom

theorem of_append {ts us vs : List Token} (h : Continues ts (us ++ vs)) :
    Continues ts us ∨ ∃ ts', ts = us ++ ts' ∧ Continues ts' vs := by
  induction us generalizing ts with
  | nil => exact .inr ⟨ts, rfl, h⟩
  | cons u us ih =>
      cases h with
      | nil => exact .inl .nil
      | cons h =>
          rcases ih h with hfirst | ⟨ts', rfl, hsecond⟩
          · exact .inl (.cons hfirst)
          · exact .inr ⟨ts', rfl, hsecond⟩
      | atom ht hu => exact .inl (.atom ht hu)

end Continues

end Token

open Token

/-- What holds of tokens that go on in those of a phrase. No more parentheses are closed than
opened, and where none is open, an expression and the suffixes behind an operator are complete. -/
def Phrase.Opened : Phrase → List Token → Prop
  | .expression _, ts => 0 ≤ depth ts ∧
      (ts ≠ [] → depth ts = 0 → ∃ e, Derives (.expression e) ts)
  | .suffixes _ _, ts => 0 ≤ depth ts ∧
      (depth ts = 0 → ∀ f, ∃ e, Derives (.suffixes f e) ts)
  | .arguments _, ts | .furtherArguments _, ts => 0 ≤ depth ts

namespace Derives

theorem depth_eq_zero {p : Phrase} {ts : List Token} (h : Derives p ts) : depth ts = 0 := by
  induction h with
  | expression hleaf _ ih =>
      rw [depth_cons, Kind.weight_of_isAtom (isAtom_iff_leaf?.mpr ⟨_, hleaf⟩), ih, zero_add]
  | suffix hl _ hr _ ihArguments ihSuffixes =>
      simp [hl, hr, ihArguments, ihSuffixes]
  | noSuffix | noArgument | lastArgument => rfl
  | argument _ _ ihFirst ihFurther => simp [ihFirst, ihFurther]
  | trailingComma hc => simp [hc]
  | furtherArgument hc _ _ ihFirst ihFurther => simp [hc, ihFirst, ihFurther]

theorem opened {p : Phrase} {us : List Token} (h : Derives p us) {ts : List Token}
    (hts : Continues ts us) : p.Opened ts := by
  -- at each piece of the phrase, the tokens end there or hold all of it
  induction h generalizing ts with
  | @expression t f e us hleaf _ ih =>
      have hatom := isAtom_iff_leaf?.mpr ⟨f, hleaf⟩
      cases hts with
      | nil => exact ⟨Int.le_refl 0, fun hne => absurd rfl hne⟩
      | cons hts =>
          obtain ⟨hdepth, hcomplete⟩ := ih hts
          rw [Phrase.Opened, depth_cons, Kind.weight_of_isAtom hatom, zero_add]
          refine ⟨hdepth, fun _ hzero => ?_⟩
          obtain ⟨e', hsuffixes⟩ := hcomplete hzero f
          exact ⟨e', .expression hleaf hsuffixes⟩
      | @atom t' _ _ ht' _ =>
          obtain ⟨f', hleaf'⟩ := isAtom_iff_leaf?.mp ht'
          rw [Phrase.Opened, depth_cons, Kind.weight_of_isAtom ht', depth_nil]
          exact ⟨Int.le_refl 0, fun _ _ => ⟨f', .expression hleaf' .noSuffix⟩⟩
  | noSuffix =>
      cases hts
      exact ⟨Int.le_refl 0, fun _ f => ⟨f, .noSuffix⟩⟩
  | @suffix f e es l r as us hl harguments hr _ ihArguments ihSuffixes =>
      rcases hts.of_cons (by rw [hl]; rfl) with rfl | ⟨inner, rfl, hinner⟩
      · exact ⟨Int.le_refl 0, fun _ f => ⟨f, .noSuffix⟩⟩
      · rw [Phrase.Opened, depth_cons, hl, Kind.weight_opening]
        rcases hinner.of_append with hinner | ⟨outer, rfl, houter⟩
        · have hopen : 0 ≤ depth inner := ihArguments hinner
          exact ⟨by omega, fun hzero => by omega⟩
        · rw [depth_append, harguments.depth_eq_zero]
          rcases houter.of_cons (by rw [hr]; rfl) with rfl | ⟨more, rfl, hmore⟩
          · exact ⟨by simp, fun hzero => by simp at hzero⟩
          · obtain ⟨hdepth, hcomplete⟩ := ihSuffixes hmore
            rw [depth_cons, hr, Kind.weight_closing]
            refine ⟨by omega, fun hzero f' => ?_⟩
            obtain ⟨e', hsuffixes⟩ := hcomplete (by omega) (.apply f' es f'.position)
            exact ⟨e', .suffix hl harguments hr hsuffixes⟩
  | noArgument | lastArgument =>
      cases hts
      exact Int.le_refl 0
  | argument hfirst _ ihFirst ihFurther =>
      rcases hts.of_append with hts | ⟨more, rfl, hmore⟩
      · exact (ihFirst hts).1
      · rw [Phrase.Opened, depth_append, hfirst.depth_eq_zero, zero_add]
        exact ihFurther hmore
  | trailingComma hc =>
      rcases hts.of_cons (by rw [hc]; rfl) with rfl | ⟨more, rfl, hmore⟩
      · exact Int.le_refl 0
      · rw [Phrase.Opened, depth_cons, hc, Kind.weight_comma, zero_add]
        cases hmore
        exact Int.le_refl 0
  | furtherArgument hc hfirst _ ihFirst ihFurther =>
      rcases hts.of_cons (by rw [hc]; rfl) with rfl | ⟨behind, rfl, hbehind⟩
      · exact Int.le_refl 0
      · rw [Phrase.Opened, depth_cons, hc, Kind.weight_comma, zero_add]
        rcases hbehind.of_append with hbehind | ⟨more, rfl, hmore⟩
        · exact (ihFirst hbehind).1
        · rw [depth_append, hfirst.depth_eq_zero, zero_add]
          exact ihFurther hmore

/-- What one has of an expression is an expression, once no parenthesis is open any more. -/
theorem of_continues {e : Expr} {ts us : List Token} (h : Derives (.expression e) us)
    (hts : Continues ts us) (hne : ts ≠ []) (hdepth : depth ts ≤ 0) :
    ∃ e', Derives (.expression e') ts := by
  obtain ⟨hnonneg, hcomplete⟩ := h.opened hts
  exact hcomplete hne (Int.le_antisymm hdepth hnonneg)

end Derives

theorem Token.needsMore_eq_false_iff {source : String} :
    needsMore source = false ↔
      depth (scan source) ≤ 0 ∧ ∀ t ∈ scan source, t.kind ≠ .unclosed := by
  simp [needsMore, hasUnclosed]

theorem Token.continues_scan {source : String} (h : needsMore source = false) (more : String) :
    Continues (scan source) (scan (source ++ more)) := by
  have hclosed := (needsMore_eq_false_iff.mp h).2
  rw [← Cursor.tokens_ofText] at hclosed ⊢
  rw [← Cursor.tokens_ofText, String.toList_append]
  exact Cursor.tokens_continues hclosed more.toList

/-- More input is asked for exactly where it can help. A text that is a program needs no more
input, and the Enter key submits it. A text that holds a token and is no program, but becomes one
when something is put behind it, needs more input, and the Enter key starts a new line, unless the
text looks like a command. -/
theorem needsMore_of_unfinished (text : String) (htext : Token.scan text ≠ []) :
    (∀ limit e, Expr.parse limit text = .ok e →
      Token.needsMore text = false ∧ Session.onEnter text = .submit) ∧
    ∀ limit rejection, Expr.parse limit text = .error (.rejected rejection) →
      ∀ limit' more e, Expr.parse limit' (text ++ more) = .ok e →
        Token.needsMore text = true ∧
        ((Text.trimLeft text.toList).head? ≠ some '/' → Session.onEnter text = .newLine) := by
  refine ⟨fun limit e hparse => ?_, fun limit rejection hreject limit' more e hparse => ?_⟩
  · have hderives := Expr.derives_of_parse hparse
    have hmore : Token.needsMore text = false :=
      needsMore_eq_false_iff.mpr ⟨Int.le_of_eq hderives.depth_eq_zero, hderives.kind_ne_unclosed⟩
    exact ⟨hmore, by simp [Session.onEnter, hmore]⟩
  · have hmore : Token.needsMore text = true := by
      by_contra hmore
      rw [Bool.not_eq_true] at hmore
      obtain ⟨e', hderives⟩ := (Expr.derives_of_parse hparse).of_continues
        (continues_scan hmore more) htext (needsMore_eq_false_iff.mp hmore).1
      rcases Expr.parse_of_derives hderives limit with hdeep | hok
      · rw [hdeep] at hreject
        cases hreject
      · rw [hok] at hreject
        cases hreject
    exact ⟨hmore, fun hslash => by simp [Session.onEnter, hmore, hslash]⟩

theorem needsMore_of_unfinished_call :
    Token.scan "f(x" ≠ [] ∧ (∃ rejection, Expr.parse 9 "f(x" = .error (.rejected rejection)) ∧
      Session.onEnter "f(x" = .newLine ∧
      Token.scan "f(x)" ≠ [] ∧ (∃ e, Expr.parse 9 "f(x)" = .ok e) ∧
      Session.onEnter "f(x)" = .submit := by
  have htokens : Token.scan "f(x" ≠ [] := by decide +kernel
  have htokens' : Token.scan "f(x)" ≠ [] := by decide +kernel
  have hslash : (Text.trimLeft "f(x".toList).head? ≠ some '/' := by decide
  have hreject : (match Expr.parse 9 "f(x" with
      | .error (.rejected _) => true
      | _ => false) = true := by decide +kernel
  have hok : (Expr.parse 9 "f(x)").toBool = true := by decide +kernel
  split at hreject
  · rename_i rejection hrejected
    cases he : Expr.parse 9 "f(x)" with
    | error stop =>
        rw [he] at hok
        cases hok
    | ok e =>
        have hmore := (needsMore_of_unfinished "f(x" htokens).2 9 rejection hrejected 9 ")" e he
        have hdone := (needsMore_of_unfinished "f(x)" htokens').1 9 e he
        exact ⟨htokens, ⟨rejection, hrejected⟩, hmore.2 hslash, htokens', ⟨e, rfl⟩, hdone.2⟩
  · cases hreject

end Egg
