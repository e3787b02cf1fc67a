import Egg.Proofs.ProgramNode

/-!
Expressions token by token. What may come next in an expression depends on two things only: how
many parentheses are open, and whether an operand has to come or is complete. A token list is an
expression exactly if one can walk along it from one such spot to the next, and ends where an
operand is complete and nothing is open; and from every spot on the way there is a way to the end.
-/

namespace Egg

/-- A spot in an expression, with the number of open parentheses: where an operand has to come, or
where one is complete. -/
inductive Spot where
  | wanting (opened : Nat)
  | having (opened : Nat)
deriving DecidableEq, Repr

namespace Spot

/-- Where a token leads from a spot. Inside parentheses, the closing one may also stand where an
operand could. -/
def step : Spot → Token.Kind → Option Spot
  | wanting n, .string | wanting n, .number | wanting n, .word => some (having n)
  | wanting (n + 1), .closing => some (having n)
  | having n, .opening => some (wanting (n + 1))
  | having (n + 1), .comma => some (wanting (n + 1))
  | having (n + 1), .closing => some (having n)
  | _, _ => none

def walk (spot : Spot) (ts : List Token) : Option Spot :=
  ts.foldlM (fun s t => s.step t.kind) spot

@[simp] theorem walk_nil (spot : Spot) : spot.walk [] = some spot := rfl

theorem walk_cons (spot : Spot) (t : Token) (ts : List Token) :
    spot.walk (t :: ts) = (spot.step t.kind).bind fun next => next.walk ts := rfl

theorem walk_append (spot : Spot) (ts us : List Token) :
    spot.walk (ts ++ us) = (spot.walk ts).bind fun next => next.walk us :=
  List.foldlM_append

theorem step_of_leaf? {t : Token} {f : Expr} (h : t.leaf? = some f) (n : Nat) :
    (wanting n).step t.kind = some (having n) := by
  rcases Token.kind_of_leaf? h with hkind | hkind | hkind
  · rw [hkind, step]
  · rw [hkind, step]
  · rw [hkind, step]

theorem step_wanting_cases {n : Nat} {t : Token} {next : Spot}
    (h : (wanting n).step t.kind = some next) :
    (∃ f, t.leaf? = some f) ∧ next = having n ∨
      ∃ k, n = k + 1 ∧ t.kind = .closing ∧ next = having k := by
  cases hkind : t.kind with
  | string | number | word =>
      rw [hkind] at h
      cases h
      exact .inl ⟨by simp [Token.leaf?, hkind], rfl⟩
  | closing =>
      rw [hkind] at h
      rcases n with _ | k
      · cases h
      · cases h
        exact .inr ⟨k, rfl, rfl, rfl⟩
  | opening | comma | blank | comment | unclosed =>
      rw [hkind] at h
      cases h

theorem step_having_cases {n : Nat} {t : Token} {next : Spot}
    (h : (having n).step t.kind = some next) :
    t.kind = .opening ∧ next = wanting (n + 1) ∨
      ∃ k, n = k + 1 ∧
        (t.kind = .comma ∧ next = wanting n ∨ t.kind = .closing ∧ next = having k) := by
  cases hkind : t.kind with
  | opening =>
      rw [hkind] at h
      cases h
      exact .inl ⟨rfl, rfl⟩
  | comma =>
      rw [hkind] at h
      rcases n with _ | k
      · cases h
      · cases h
        exact .inr ⟨k, rfl, .inl ⟨rfl, rfl⟩⟩
  | closing =>
      rw [hkind] at h
      rcases n with _ | k
      · cases h
      · cases h
        exact .inr ⟨k, rfl, .inr ⟨rfl, rfl⟩⟩
  | string | number | word | blank | comment | unclosed =>
      rw [hkind] at h
      cases h

theorem exists_walk (spot : Spot) : ∃ more, spot.walk more = some (having 0) := by
  have hclose : ∀ n, ∃ more, (having n).walk more = some (having 0) := by
    intro n
    induction n with
    | zero => exact ⟨[], rfl⟩
    | succ n ih =>
        obtain ⟨more, hmore⟩ := ih
        exact ⟨⟨.closing, ")", .start⟩ :: more, hmore⟩
  rcases spot with (_ | n) | n
  · exact ⟨[⟨.word, "x", .start⟩], rfl⟩
  · obtain ⟨more, hmore⟩ := hclose n
    exact ⟨⟨.closing, ")", .start⟩ :: more, hmore⟩
  · exact hclose n

end Spot

open Spot

/-- How one walks along the tokens of a phrase. Arguments may end at a comma, before an operand.
-/
def Phrase.IsWalked : Phrase → List Token → Prop
  | .expression _, ts => ∀ n, (wanting n).walk ts = some (having n)
  | .suffixes _ _, ts => ∀ n, (having n).walk ts = some (having n)
  | .arguments _, ts => ∀ n, ∃ next, (wanting (n + 1)).walk ts = some next ∧
      (next = wanting (n + 1) ∨ next = having (n + 1))
  | .furtherArguments _, ts => ∀ n, ∃ next, (having (n + 1)).walk ts = some next ∧
      (next = wanting (n + 1) ∨ next = having (n + 1))

theorem Phrase.IsWalked.walk_closing {es : List Expr} {ts : List Token} {t : Token}
    (h : (Phrase.arguments es).IsWalked ts) (ht : t.kind = .closing) (n : Nat) :
    (wanting (n + 1)).walk (ts ++ [t]) = some (having n) := by
  obtain ⟨next, hnext, hspot⟩ := h n
  rw [walk_append, hnext, Option.bind_some, walk_cons, ht]
  rcases hspot with rfl | rfl
  · rfl
  · rfl

theorem Derives.isWalked {p : Phrase} {ts : List Token} (h : Derives p ts) : p.IsWalked ts := by
  induction h with
  | expression hleaf _ ih =>
      intro n
      rw [walk_cons, step_of_leaf? hleaf]
      exact ih n
  | noSuffix => exact fun n => rfl
  | suffix hl _ hr _ ihArguments ihSuffixes =>
      intro n
      rw [walk_cons, hl, step, Option.bind_some, List.append_cons, walk_append,
        ihArguments.walk_closing hr n]
      exact ihSuffixes n
  | noArgument => exact fun n => ⟨_, rfl, .inl rfl⟩
  | argument _ _ ihFirst ihFurther =>
      intro n
      rw [walk_append, ihFirst]
      exact ihFurther n
  | lastArgument => exact fun n => ⟨_, rfl, .inr rfl⟩
  | trailingComma hc =>
      intro n
      rw [walk_cons, hc]
      exact ⟨_, rfl, .inl rfl⟩
  | furtherArgument hc _ _ ihFirst ihFurther =>
      intro n
      rw [walk_cons, hc, step, Option.bind_some, walk_append, ihFirst]
      exact ihFurther n

/-- If tokens lead to the end from behind an operand, they begin with all of its suffixes. -/
def SplitSuffixes (ts : List Token) : Prop :=
  ∀ n, (having n).walk ts = some (having 0) →
    ∃ us vs, ts = us ++ vs ∧ (∀ f, ∃ e, Derives (.suffixes f e) us) ∧
      (having n).walk vs = some (having 0) ∧ ∀ t ∈ vs.head?, t.kind ≠ .opening

/-- If tokens lead to the end from where an argument may come, they begin with arguments and the
closing parenthesis. -/
def SplitArguments (ts : List Token) : Prop :=
  ∀ n, (wanting (n + 1)).walk ts = some (having 0) →
    ∃ us r vs es, ts = us ++ r :: vs ∧ r.kind = .closing ∧ Derives (.arguments es) us ∧
      (having n).walk vs = some (having 0)

section Split

variable {t : Token} {ts : List Token}

theorem splitSuffixes_of_shorter (harguments : SplitArguments ts)
    (hsuffixes : ∀ us, us.length < (t :: ts).length → SplitSuffixes us) :
    SplitSuffixes (t :: ts) := by
  intro n h
  by_cases hopen : t.kind = .opening
  · rw [walk_cons, hopen, step, Option.bind_some] at h
    obtain ⟨us, r, vs, es, rfl, hr, hes, hvs⟩ := harguments n h
    obtain ⟨ws, xs, rfl, hws, hxs, hhead⟩ :=
      hsuffixes vs (by simp only [List.length_cons, List.length_append]; omega) n hvs
    refine ⟨t :: (us ++ r :: ws), xs, by simp, fun f => ?_, hxs, hhead⟩
    obtain ⟨e, he⟩ := hws (.apply f es f.position)
    exact ⟨e, .suffix hopen hes hr he⟩
  · refine ⟨[], t :: ts, rfl, fun f => ⟨f, .noSuffix⟩, h, ?_⟩
    simpa using hopen

theorem splitArguments_of_shorter (harguments : ∀ us, us.length < ts.length → SplitArguments us)
    (hsuffixes : SplitSuffixes ts) : SplitArguments (t :: ts) := by
  intro n h
  obtain ⟨next, hstep, hnext⟩ := Option.bind_eq_some_iff.mp h
  rcases step_wanting_cases hstep with ⟨⟨f, hleaf⟩, rfl⟩ | ⟨k, hk, hclose, rfl⟩
  · obtain ⟨us, vs, rfl, hus, hvs, hhead⟩ := hsuffixes (n + 1) hnext
    obtain ⟨e, he⟩ := hus f
    have hfirst : Derives (.expression e) (t :: us) := .expression hleaf he
    rcases vs with _ | ⟨u, vs⟩
    · cases hvs
    · obtain ⟨next', hstep', hnext'⟩ := Option.bind_eq_some_iff.mp hvs
      rcases step_having_cases hstep' with ⟨hopen, -⟩ | ⟨k, hk, ⟨hcomma, rfl⟩ | ⟨hclose, rfl⟩⟩
      · exact absurd hopen (hhead u rfl)
      · obtain ⟨ws, r, xs, es, rfl, hr, hes, hxs⟩ :=
          harguments vs (by simp only [List.length_cons, List.length_append]; omega) n hnext'
        refine ⟨t :: us ++ u :: ws, r, xs, e :: es, by simp, hr, ?_, hxs⟩
        exact .argument hfirst (.furtherArguments_of_arguments hcomma hes)
      · obtain rfl : n = k := Nat.succ.inj hk
        exact ⟨t :: us ++ [], u, vs, [e], by simp, hclose, .argument hfirst .lastArgument, hnext'⟩
  · obtain rfl : n = k := Nat.succ.inj hk
    exact ⟨[], t, ts, [], rfl, hclose, .noArgument, hnext⟩

end Split

theorem split_of_walk (ts : List Token) : SplitSuffixes ts ∧ SplitArguments ts := by
  induction hlength : ts.length using Nat.strong_induction_on generalizing ts with
  | h k ih =>
      subst hlength
      rcases ts with _ | ⟨t, ts⟩
      · constructor
        · intro n h
          exact ⟨[], [], rfl, fun f => ⟨f, .noSuffix⟩, h, by simp⟩
        · intro n h
          cases h
      · have hts := ih ts.length (by simp) ts rfl
        constructor
        · exact splitSuffixes_of_shorter hts.2 fun us hus => (ih us.length hus us rfl).1
        · refine splitArguments_of_shorter (fun us hus => ?_) hts.1
          exact (ih us.length (by simp only [List.length_cons]; omega) us rfl).2

theorem exists_derives_iff_walk {ts : List Token} :
    (∃ e, Derives (.expression e) ts) ↔ (wanting 0).walk ts = some (having 0) := by
  constructor
  · rintro ⟨e, h⟩
    exact h.isWalked 0
  · intro h
    rcases ts with _ | ⟨t, ts⟩
    · cases h
    · obtain ⟨next, hstep, hnext⟩ := Option.bind_eq_some_iff.mp h
      rcases step_wanting_cases hstep with ⟨⟨f, hleaf⟩, rfl⟩ | ⟨k, hk, -⟩
      · obtain ⟨us, vs, rfl, hus, hvs, hhead⟩ := (split_of_walk ts).1 0 hnext
        obtain ⟨e, he⟩ := hus f
        rcases vs with _ | ⟨u, vs⟩
        · exact ⟨e, .expression hleaf (by simpa using he)⟩
        · obtain ⟨_, hstep', -⟩ := Option.bind_eq_some_iff.mp hvs
          rcases step_having_cases hstep' with ⟨hopen, -⟩ | ⟨k, hk, -⟩
          · exact absurd hopen (hhead u rfl)
          · cases hk
      · cases hk

/-- The tokens that an expression can begin with are those along which one can walk. -/
theorem exists_derives_append_iff {ts : List Token} :
    (∃ e more, Derives (.expression e) (ts ++ more)) ↔ ∃ spot, (wanting 0).walk ts = some spot := by
  constructor
  · rintro ⟨e, more, h⟩
    have hwalk := h.isWalked 0
    rw [walk_append] at hwalk
    obtain ⟨spot, hspot, -⟩ := Option.bind_eq_some_iff.mp hwalk
    exact ⟨spot, hspot⟩
  · rintro ⟨spot, hspot⟩
    obtain ⟨more, hmore⟩ := spot.exists_walk
    have hwalk : (wanting 0).walk (ts ++ more) = some (having 0) := by
      rw [walk_append, hspot, Option.bind_some, hmore]
    obtain ⟨e, h⟩ := exists_derives_iff_walk.mpr hwalk
    exact ⟨e, more, h⟩

end Egg
