import Egg.Expr.Parser
import Egg.Token.Basic
import Mathlib.Data.List.TakeWhile
import Mathlib.Tactic.SplitIfs

namespace Egg

def Token.Kind.ofMark? (mark : Char) : Option Token.Kind :=
  if mark = '(' then some .opening
  else if mark = ')' then some .closing
  else if mark = ',' then some .comma
  else none

theorem Token.Kind.ofMark?_opening : Token.Kind.ofMark? '(' = some .opening := rfl

theorem Token.Kind.ofMark?_closing : Token.Kind.ofMark? ')' = some .closing := rfl

theorem Token.Kind.ofMark?_comma : Token.Kind.ofMark? ',' = some .comma := rfl

theorem Token.Kind.ofMark?_eq_none_iff {a : Char} :
    Token.Kind.ofMark? a = none ↔ a ≠ '(' ∧ a ≠ ')' ∧ a ≠ ',' := by
  unfold Token.Kind.ofMark?
  split_ifs <;> simp_all

theorem Token.Kind.ofMark?_cases {a : Char} {kind : Token.Kind}
    (h : Token.Kind.ofMark? a = some kind) :
    a = '(' ∧ kind = .opening ∨ a = ')' ∧ kind = .closing ∨ a = ',' ∧ kind = .comma := by
  unfold Token.Kind.ofMark? at h
  split_ifs at h <;> simp_all

theorem Token.Kind.ofMark?_inj {a b : Char} {kind : Token.Kind}
    (ha : Token.Kind.ofMark? a = some kind) (hb : Token.Kind.ofMark? b = some kind) : a = b := by
  rcases ofMark?_cases ha with ⟨rfl, rfl⟩ | ⟨rfl, rfl⟩ | ⟨rfl, rfl⟩ <;>
    rcases ofMark?_cases hb with ⟨rfl, h⟩ | ⟨rfl, h⟩ | ⟨rfl, h⟩ <;> first | rfl | cases h

theorem Atom.read?_of_mark {a : Char} {kind : Token.Kind} (h : Token.Kind.ofMark? a = some kind)
    (cs : List Char) : Atom.read? (a :: cs) = none := by
  rcases Token.Kind.ofMark?_cases h with ⟨rfl, -⟩ | ⟨rfl, -⟩ | ⟨rfl, -⟩ <;> rfl

theorem Atom.isNameChar_of_read?_eq_none {a : Char} {cs : List Char}
    (h : Atom.read? (a :: cs) = none) : isNameChar a = false := by
  rw [Bool.eq_false_iff]
  intro hname
  have hword : Atom.word? (a :: cs) = some (a :: cs.takeWhile isNameChar) := by
    simp [Atom.word?, hname]
  simp [Atom.read?, hword] at h

theorem Token.lexeme_ne_nil (a : Char) (cs : List Char) : (Token.lexeme a cs).2 ≠ [] := by
  unfold Token.lexeme
  split_ifs
  · simp
  · simp
  · simp
  · simp
  · simp
  · split
    · rename_i atom hread
      exact Atom.text_ne_nil_of_read? hread
    · simp

theorem Token.lexeme_of_mark {a : Char} {kind : Token.Kind} (h : Token.Kind.ofMark? a = some kind)
    (cs : List Char) : Token.lexeme a cs = (kind, [a]) := by
  rcases Token.Kind.ofMark?_cases h with ⟨rfl, rfl⟩ | ⟨rfl, rfl⟩ | ⟨rfl, rfl⟩ <;> rfl

theorem Token.lexeme_layout_cases {a : Char} {cs : List Char}
    (h : (Token.lexeme a cs).1.isLayout = true) :
    Text.isBlank a = true ∧ Token.lexeme a cs = (.blank, a :: cs.takeWhile Text.isBlank) ∨
      Text.isBlank a = false ∧ a = '#' ∧
        Token.lexeme a cs = (.comment, a :: cs.takeWhile (· ≠ '\n')) := by
  unfold Token.lexeme at h ⊢
  split_ifs at h ⊢ with hblank hcomment hopen hclose hcomma
  · exact .inl ⟨hblank, rfl⟩
  · exact .inr ⟨by simpa using hblank, hcomment, rfl⟩
  · cases h
  · cases h
  · cases h
  · split at h
    · rename_i atom _
      cases atom <;> cases h
    · cases h

theorem Token.lexeme_not_layout {a : Char} {cs : List Char}
    (h : (Token.lexeme a cs).1.isLayout = false) : Text.isBlank a = false ∧ a ≠ '#' := by
  have hblank : Text.isBlank a = false := by
    rw [Bool.eq_false_iff]
    intro hblank
    simp [Token.lexeme, hblank, Token.Kind.isLayout] at h
  refine ⟨hblank, ?_⟩
  rintro rfl
  simp [Token.lexeme, hblank, Token.Kind.isLayout] at h

theorem Token.lexeme_of_not_mark {a : Char} {cs : List Char}
    (hlayout : (Token.lexeme a cs).1.isLayout = false) (hmark : Token.Kind.ofMark? a = none) :
    Token.lexeme a cs = match Atom.read? (a :: cs) with
      | some atom => (.ofAtom atom, atom.text)
      | none => (.unclosed, a :: cs) := by
  obtain ⟨hblank, hcomment⟩ := Token.lexeme_not_layout hlayout
  obtain ⟨hopen, hclose, hcomma⟩ := Token.Kind.ofMark?_eq_none_iff.mp hmark
  cases hread : Atom.read? (a :: cs) with
  | none => simp [Token.lexeme, hblank, hcomment, hopen, hclose, hcomma, hread]
  | some atom => simp [Token.lexeme, hblank, hcomment, hopen, hclose, hcomma, hread]

section Layout

theorem layout_blanks {bs : List Char} (h : ∀ b ∈ bs, Text.isBlank b = true) (cs : List Char) :
    layout false (bs ++ cs) = bs ++ layout false cs := by
  induction bs with
  | nil => rfl
  | cons b bs ih =>
      have hb : Text.isBlank b = true := h b (by simp)
      rw [List.cons_append, layout]
      simp only [Bool.false_and, Bool.false_eq_true, if_false, hb, if_true, List.cons_append]
      rw [ih fun x hx => h x (by simp [hx])]

theorem layout_commentText {bs : List Char} (h : ∀ b ∈ bs, b ≠ '\n') (cs : List Char) :
    layout true (bs ++ cs) = bs ++ layout true cs := by
  induction bs with
  | nil => rfl
  | cons b bs ih =>
      have hb : b ≠ '\n' := h b (by simp)
      rw [List.cons_append, layout]
      simp only [Bool.true_and, bne_iff_ne, ne_eq, hb, not_false_eq_true, if_true,
        List.cons_append]
      rw [ih fun x hx => h x (by simp [hx])]

theorem layout_true_of_head? {cs : List Char} (h : ∀ c ∈ cs.head?, c = '\n') :
    layout true cs = layout false cs := by
  rcases cs with _ | ⟨c, cs⟩
  · rfl
  · obtain rfl : c = '\n' := h c rfl
    simp [layout]

theorem layout_comment {body : List Char} (hbody : '\n' ∉ body) {cs : List Char}
    (hcs : ∀ c ∈ cs.head?, c = '\n') :
    layout false ('#' :: (body ++ cs)) = '#' :: (body ++ layout false cs) := by
  have hopen : layout false ('#' :: (body ++ cs)) = '#' :: layout true (body ++ cs) := rfl
  have hline : ∀ b ∈ body, b ≠ '\n' := fun b hb hnewline => hbody (hnewline ▸ hb)
  rw [hopen, layout_commentText hline, layout_true_of_head? hcs]

theorem newline_notMem_takeWhile (cs : List Char) : '\n' ∉ cs.takeWhile (· ≠ '\n') := by
  intro hmem
  simpa using List.mem_takeWhile_imp hmem

theorem head?_dropWhile_newline (cs : List Char) :
    ∀ c ∈ (cs.dropWhile (· ≠ '\n')).head?, c = '\n' := by
  intro c hc
  have hhead := List.head?_dropWhile_not (· ≠ '\n') cs
  rw [Option.mem_def.mp hc] at hhead
  simpa using hhead

/-- The layout at the front of a text begins with the first blank or comment token, and goes on
with the layout behind that token. -/
theorem layout_cons_of_isLayout {a : Char} {cs : List Char}
    (h : (Token.lexeme a cs).1.isLayout = true) :
    layout false (a :: cs) =
      (Token.lexeme a cs).2 ++ layout false ((a :: cs).drop (Token.lexeme a cs).2.length) := by
  rcases Token.lexeme_layout_cases h with ⟨hblank, hlex⟩ | ⟨hblank, rfl, hlex⟩
  · have hcons : a :: cs = (a :: cs.takeWhile Text.isBlank) ++ cs.dropWhile Text.isBlank := by
      simp
    have hall : ∀ b ∈ a :: cs.takeWhile Text.isBlank, Text.isBlank b = true := by
      intro b hb
      rcases List.mem_cons.mp hb with rfl | hb
      · exact hblank
      · exact List.mem_takeWhile_imp hb
    rw [hlex, hcons, List.drop_left, layout_blanks hall]
  · have hcons : '#' :: cs = ('#' :: cs.takeWhile (· ≠ '\n')) ++ cs.dropWhile (· ≠ '\n') := by
      simp
    have hdrop : ('#' :: cs).drop ('#' :: cs.takeWhile (· ≠ '\n')).length =
        cs.dropWhile (· ≠ '\n') :=
      (congrArg (List.drop _) hcons).trans List.drop_left
    have hlayout := layout_comment (newline_notMem_takeWhile cs) (head?_dropWhile_newline cs)
    rw [List.takeWhile_append_dropWhile] at hlayout
    rw [hlex, hdrop, hlayout]
    rfl

theorem layout_cons_eq_nil_iff {a : Char} {cs : List Char} :
    layout false (a :: cs) = [] ↔ (Token.lexeme a cs).1.isLayout = false := by
  constructor
  · intro h
    by_contra hlayout
    have hcons := layout_cons_of_isLayout (by simpa using hlayout)
    rw [h] at hcons
    exact Token.lexeme_ne_nil a cs (List.append_eq_nil_iff.mp hcons.symm).1
  · intro h
    obtain ⟨hblank, hcomment⟩ := Token.lexeme_not_layout h
    simp [layout, hblank, hcomment]

end Layout

namespace Cursor

/-- The tokens from a cursor on, layout left out. -/
def tokens (c : Cursor) : List Token :=
  Token.scanFrom false c.position c.rest

theorem tokens_ofText (source : String) : (ofText source.toList).tokens = Token.scan source := rfl

@[simp] theorem move_nil (c : Cursor) : c.move [] = c := rfl

theorem move_move (c : Cursor) (text more : List Char) :
    (c.move text).move more = c.move (text ++ more) := by
  simp [move, Position.after_append, List.drop_drop]

theorem layout_skip (c : Cursor) : layout false c.skip.rest = [] :=
  layout_skipLayout c.rest

theorem skip_of_layout_eq_nil {c : Cursor} (h : layout false c.rest = []) : c.skip = c := by
  rw [skip, h, move_nil]

@[simp] theorem skip_skip (c : Cursor) : c.skip.skip = c.skip :=
  skip_of_layout_eq_nil c.layout_skip

theorem layout_of_skip_eq_self {c : Cursor} (h : c.skip = c) : layout false c.rest = [] := by
  rw [← h]
  exact c.layout_skip

theorem tokens_of_rest_eq_nil {c : Cursor} (h : c.rest = []) : c.tokens = [] := by
  rw [tokens, h, Token.scanFrom]

section First

variable {c : Cursor} {a : Char} {cs : List Char} (h : c.rest = a :: cs)

include h

theorem length_move_lexeme_lt : (c.move (Token.lexeme a cs).2).rest.length < c.rest.length :=
  length_move_lt (by simp [h]) (Token.lexeme_ne_nil a cs)

theorem scanFrom_eq_ite (emitLayout : Bool) :
    Token.scanFrom emitLayout c.position c.rest =
      if !(Token.lexeme a cs).1.isLayout || emitLayout then
        ⟨(Token.lexeme a cs).1, String.ofList (Token.lexeme a cs).2, c.position⟩ ::
          Token.scanFrom emitLayout (c.move (Token.lexeme a cs).2).position
            (c.move (Token.lexeme a cs).2).rest
      else
        Token.scanFrom emitLayout (c.move (Token.lexeme a cs).2).position
          (c.move (Token.lexeme a cs).2).rest := by
  have hdrop : cs.drop ((Token.lexeme a cs).2.length - 1) =
      (a :: cs).drop (Token.lexeme a cs).2.length := by
    obtain ⟨n, hn⟩ := Nat.exists_eq_succ_of_ne_zero
      (List.length_pos_iff.mpr (Token.lexeme_ne_nil a cs)).ne'
    rw [hn]
    rfl
  simp only [move, h, ← hdrop]
  rw [Token.scanFrom]

theorem tokens_of_isLayout (hlayout : (Token.lexeme a cs).1.isLayout = true) :
    c.tokens = (c.move (Token.lexeme a cs).2).tokens := by
  rw [tokens, scanFrom_eq_ite h, hlayout]
  rfl

theorem tokens_of_not_isLayout (hlayout : (Token.lexeme a cs).1.isLayout = false) :
    c.tokens = ⟨(Token.lexeme a cs).1, String.ofList (Token.lexeme a cs).2, c.position⟩ ::
      (c.move (Token.lexeme a cs).2).tokens := by
  rw [tokens, scanFrom_eq_ite h, hlayout]
  rfl

theorem scanFrom_true_eq_cons :
    Token.scanFrom true c.position c.rest =
      ⟨(Token.lexeme a cs).1, String.ofList (Token.lexeme a cs).2, c.position⟩ ::
        Token.scanFrom true (c.move (Token.lexeme a cs).2).position
          (c.move (Token.lexeme a cs).2).rest := by
  rw [scanFrom_eq_ite h, Bool.or_true, if_pos rfl]

end First

/-- Scanning with and without layout finds the same other tokens, at the same places. -/
theorem tokens_eq_filter (c : Cursor) :
    c.tokens = (Token.scanFrom true c.position c.rest).filter (!·.kind.isLayout) := by
  induction hn : c.rest.length using Nat.strong_induction_on generalizing c with
  | h n ih =>
      rcases hrest : c.rest with _ | ⟨a, cs⟩
      · rw [tokens_of_rest_eq_nil hrest, Token.scanFrom, List.filter_nil]
      · have hmore := ih _ (hn ▸ length_move_lexeme_lt hrest) _ rfl
        rw [← hrest, scanFrom_true_eq_cons hrest, List.filter_cons, ← hmore]
        cases hlayout : (Token.lexeme a cs).1.isLayout with
        | false => exact tokens_of_not_isLayout hrest hlayout
        | true => exact tokens_of_isLayout hrest hlayout

@[simp] theorem tokens_skip (c : Cursor) : c.skip.tokens = c.tokens := by
  induction hn : c.rest.length using Nat.strong_induction_on generalizing c with
  | h n ih =>
      rcases hrest : c.rest with _ | ⟨a, cs⟩
      · rw [skip_of_layout_eq_nil (by rw [hrest]; rfl)]
      · cases hlayout : (Token.lexeme a cs).1.isLayout with
        | false =>
            rw [skip_of_layout_eq_nil (by rw [hrest]; exact layout_cons_eq_nil_iff.mpr hlayout)]
        | true =>
            have hskip : c.skip = (c.move (Token.lexeme a cs).2).skip := by
              rw [skip, skip, move_move, hrest, layout_cons_of_isLayout hlayout]
              simp only [move, hrest]
            have hlt := hn ▸ length_move_lexeme_lt hrest
            rw [hskip, ih _ hlt _ rfl, tokens_of_isLayout hrest hlayout]

/-- What stands at a cursor that has no layout before it, with the tokens that it makes. -/
inductive Front (c : Cursor) : Prop where
  | finish (hrest : c.rest = []) (htokens : c.tokens = [])
  | mark (a : Char) (kind : Token.Kind) (hhead : c.rest.head? = some a)
      (hmark : Token.Kind.ofMark? a = some kind)
      (htokens : c.tokens = ⟨kind, String.ofList [a], c.position⟩ :: c.next.tokens)
  | atom (atom : Atom) (hread : Atom.read? c.rest = some atom)
      (htokens : c.tokens =
        ⟨.ofAtom atom, String.ofList atom.text, c.position⟩ :: (c.move atom.text).tokens)
  | unclosed (hhead : c.rest.head? = some '"') (hread : Atom.read? c.rest = none)
      (htokens : c.tokens = [⟨.unclosed, String.ofList c.rest, c.position⟩])

theorem front {c : Cursor} (hskip : c.skip = c) : c.Front := by
  have hlayout := layout_of_skip_eq_self hskip
  rcases hrest : c.rest with _ | ⟨a, cs⟩
  · exact .finish hrest (tokens_of_rest_eq_nil hrest)
  · rw [hrest, layout_cons_eq_nil_iff] at hlayout
    have htokens := tokens_of_not_isLayout hrest hlayout
    cases hmark : Token.Kind.ofMark? a with
    | some kind =>
        rw [Token.lexeme_of_mark hmark] at htokens
        refine .mark a kind (by rw [hrest]; rfl) hmark ?_
        rw [htokens, next, hrest]
        rfl
    | none =>
        have hlex := Token.lexeme_of_not_mark hlayout hmark
        cases hread : Atom.read? (a :: cs) with
        | some atom =>
            rw [hlex, hread] at htokens
            exact .atom atom (by rw [hrest, hread]) htokens
        | none =>
            rw [hlex, hread] at htokens
            have hquote : a = '"' := by
              have hname := Atom.isNameChar_of_read?_eq_none hread
              have hblank := (Token.lexeme_not_layout hlayout).1
              obtain ⟨hopen, hclose, hcomma⟩ := Token.Kind.ofMark?_eq_none_iff.mp hmark
              simpa [isNameChar, hblank, hopen, hclose, hcomma] using hname
            have hend : (c.move (a :: cs)).tokens = [] :=
              tokens_of_rest_eq_nil (by simp [move, hrest])
            refine .unclosed (by simp [hrest, hquote]) (by rw [hrest, hread]) ?_
            rw [htokens, hrest, hend]

theorem head?_of_tokens {c : Cursor} {t : Token} {ts : List Token} {a : Char} (hskip : c.skip = c)
    (htokens : c.tokens = t :: ts) (hmark : Token.Kind.ofMark? a = some t.kind) :
    c.rest.head? = some a ∧ c.next.tokens = ts := by
  cases front hskip with
  | finish _ h => rw [h] at htokens; cases htokens
  | mark b kind hhead hb h =>
      rw [h] at htokens
      cases htokens
      exact ⟨by rw [hhead, Token.Kind.ofMark?_inj hb hmark], rfl⟩
  | atom atom _ h =>
      rw [h] at htokens
      cases htokens
      rcases Token.Kind.ofMark?_cases hmark with ⟨-, h⟩ | ⟨-, h⟩ | ⟨-, h⟩ <;>
        cases atom <;> cases h
  | unclosed _ _ h =>
      rw [h] at htokens
      cases htokens
      rcases Token.Kind.ofMark?_cases hmark with ⟨-, h⟩ | ⟨-, h⟩ | ⟨-, h⟩ <;> cases h

theorem tokens_of_head? {c : Cursor} {a : Char} {kind : Token.Kind} (hskip : c.skip = c)
    (hhead : c.rest.head? = some a) (hmark : Token.Kind.ofMark? a = some kind) :
    c.tokens = ⟨kind, String.ofList [a], c.position⟩ :: c.next.tokens := by
  cases front hskip with
  | finish h _ => simp [h] at hhead
  | mark b kind' hb hkind h =>
      obtain rfl : a = b := by simpa [hhead] using hb
      rw [hmark] at hkind
      cases hkind
      exact h
  | atom atom hread _ =>
      obtain ⟨cs, hrest⟩ := List.head?_eq_some_iff.mp hhead
      rw [hrest, Atom.read?_of_mark hmark] at hread
      cases hread
  | unclosed hquote _ _ =>
      obtain rfl : a = '"' := by simpa [hhead] using hquote
      cases hmark

theorem tokens_of_read? {c : Cursor} {atom : Atom} (hskip : c.skip = c)
    (hread : Atom.read? c.rest = some atom) :
    c.tokens = ⟨.ofAtom atom, String.ofList atom.text, c.position⟩ ::
      (c.move atom.text).tokens := by
  cases front hskip with
  | finish h _ => exact absurd h (Atom.ne_nil_of_read? hread)
  | mark a kind hhead hmark _ =>
      obtain ⟨cs, hrest⟩ := List.head?_eq_some_iff.mp hhead
      rw [hrest, Atom.read?_of_mark hmark] at hread
      cases hread
  | atom atom' hread' h =>
      obtain rfl : atom = atom' := by simpa [hread] using hread'
      exact h
  | unclosed _ hnone _ =>
      rw [hread] at hnone
      cases hnone

end Cursor

end Egg
