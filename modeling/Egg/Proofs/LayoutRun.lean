import Egg.Proofs.FirstBadToken

namespace Egg

/-- That a text which stands in front of another one consists of blanks and comments. A comment
runs from `#` up to a line feed or to the end of everything. -/
inductive LayoutBefore (rest : List Char) : List Char → Prop where
  | nil : LayoutBefore rest []
  | blank {c : Char} {cs : List Char} :
      Text.isBlank c = true → LayoutBefore rest cs → LayoutBefore rest (c :: cs)
  | comment {body cs : List Char} :
      '\n' ∉ body → (∀ c ∈ (cs ++ rest).head?, c = '\n') → LayoutBefore rest cs →
      LayoutBefore rest ('#' :: (body ++ cs))

section Run

theorem layout_append_skipLayout (cs : List Char) : layout false cs ++ skipLayout cs = cs :=
  List.prefix_iff_eq_append.mp (layout_prefix_self false cs)

theorem LayoutBefore.layout_append {front rest : List Char} (h : LayoutBefore rest front) :
    layout false (front ++ rest) = front ++ layout false rest := by
  induction h with
  | nil => rfl
  | @blank c cs hblank _ ih => simp [layout, hblank, ih]
  | @comment body cs hbody hhead _ ih =>
      rw [List.cons_append, List.append_assoc, layout_comment hbody hhead, ih, List.cons_append,
        List.append_assoc]

theorem layoutBefore_layout (cs : List Char) : LayoutBefore (skipLayout cs) (layout false cs) := by
  induction hn : cs.length using Nat.strong_induction_on generalizing cs with
  | h n ih =>
      subst hn
      rcases cs with _ | ⟨c, cs⟩
      · exact .nil
      · by_cases hblank : Text.isBlank c = true
        · have hlayout : layout false (c :: cs) = c :: layout false cs := by simp [layout, hblank]
          have hskip : skipLayout (c :: cs) = skipLayout cs := by simp [skipLayout, hlayout]
          rw [hlayout, hskip]
          exact .blank hblank (ih cs.length (Nat.lt_succ_self _) cs rfl)
        · by_cases hcomment : c = '#'
          · -- the comment takes the rest of its line, and the run goes on with what is left
            subst hcomment
            obtain ⟨body, line, rfl, hbody, hhead⟩ : ∃ body line, cs = body ++ line ∧ '\n' ∉ body ∧
                ∀ c ∈ line.head?, c = '\n' :=
              ⟨_, _, List.takeWhile_append_dropWhile.symm, newline_notMem_takeWhile cs,
                head?_dropWhile_newline cs⟩
            have hlt : line.length < ('#' :: (body ++ line)).length := by
              rw [List.length_cons, List.length_append]
              omega
            have hlayout := layout_comment hbody hhead
            have hskip : skipLayout ('#' :: (body ++ line)) = skipLayout line := by
              simp [skipLayout, hlayout, List.drop_append]
            rw [hlayout, hskip]
            refine .comment hbody ?_ (ih line.length hlt line rfl)
            rwa [layout_append_skipLayout]
          · have hlayout : layout false (c :: cs) = [] := by simp [layout, hblank, hcomment]
            rw [hlayout]
            exact .nil

theorem skipIndex_of_le {source : List Char} {p : Nat} (hp : p ≤ source.length) :
    skipIndex source p = p + (layout false (source.drop p)).length := by
  rw [skipIndex, Nat.min_eq_left hp]

theorem skipIndex_bounds {source : List Char} {p : Nat} (hp : p ≤ source.length) :
    p ≤ skipIndex source p ∧ skipIndex source p ≤ source.length := by
  have hle := (layout_prefix_self false (source.drop p)).length_le
  rw [List.length_drop] at hle
  rw [skipIndex_of_le hp]
  omega

theorem drop_skipIndex {source : List Char} {p : Nat} (hp : p ≤ source.length) :
    source.drop (skipIndex source p) = skipLayout (source.drop p) := by
  rw [skipIndex_of_le hp, skipLayout, List.drop_drop]

theorem take_skipIndex {source : List Char} {p : Nat} (hp : p ≤ source.length) :
    source.take (skipIndex source p) = source.take p ++ layout false (source.drop p) := by
  rw [skipIndex_of_le hp, List.take_add, List.prefix_iff_eq_take.mp (layout_prefix_self false _)]
  simp

theorem skipIndex_of_layoutBefore {source front back : List Char} {p : Nat} (hp : p ≤ source.length)
    (hsource : source.drop p = front ++ back) (h : LayoutBefore back front) :
    skipIndex source (p + front.length) = skipIndex source p := by
  have hlength := congrArg List.length hsource
  rw [List.length_drop, List.length_append] at hlength
  have hback : source.drop (p + front.length) = back := by
    rw [← List.drop_drop, hsource, List.drop_left]
  rw [skipIndex_of_le hp, skipIndex_of_le (by omega), hback, hsource, h.layout_append,
    List.length_append, Nat.add_assoc]

end Run

namespace Cursor

def atOffset (source : List Char) (offset : Nat) : Cursor :=
  ⟨Position.start.after (source.take offset), source.drop offset⟩

theorem offset_atOffset {source : List Char} {p : Nat} (hp : p ≤ source.length) :
    (atOffset source p).position.offset = p := by
  simp [atOffset, Position.start, hp]

theorem atOffset_append (before rest : List Char) :
    atOffset (before ++ rest) before.length = ⟨Position.start.after before, rest⟩ := by
  simp [atOffset]

theorem skip_atOffset {source : List Char} {p : Nat} (hp : p ≤ source.length) :
    (atOffset source p).skip = atOffset source (skipIndex source p) := by
  rw [atOffset, atOffset, take_skipIndex hp, drop_skipIndex hp, Position.after_append]
  rfl

end Cursor

namespace Token

/-- The offsets at which the tokens of a text meet: its start, and wherever one of them ends. -/
def IsBoundary (source : String) (offset : Nat) : Prop :=
  offset = 0 ∨ ∃ t ∈ scanAll source, t.stop = offset

theorem IsBoundary.exists_scanAll_eq {source : String} {p : Nat} (h : IsBoundary source p) :
    ∃ front, (∀ t ∈ front, t.start.offset < p) ∧ scanAll source = front ++
      scanFrom true (Cursor.atOffset source.toList p).position
        (Cursor.atOffset source.toList p).rest := by
  rcases h with rfl | ⟨t, ht, rfl⟩
  · exact ⟨[], by simp, rfl⟩
  · obtain ⟨front, back, hsplit⟩ := List.append_of_mem ht
    obtain ⟨before, a, rest, hsource, hfirst, behind, htext, hback⟩ := scanFrom_split hsplit
    have hstart : t.start = Position.start.after before := by rw [hfirst, first]
    have hstop : t.stop = (before ++ t.text.toList).length := by
      rw [stop, hstart, List.length_append, String.length_toList, Position.offset_after]
      simp [Position.start]
    have hcursor : Cursor.atOffset source.toList t.stop =
        ⟨t.start.after t.text.toList, behind⟩ := by
      rw [hsource, htext, ← List.append_assoc, hstop, Cursor.atOffset_append, Position.after_append,
        hstart]
    have hlt : t.start.offset < t.stop := start_lt_stop (by simp [hfirst, first, lexeme_ne_nil])
    have hpairwise : (scanAll source).Pairwise fun t u => t.start.offset < u.start.offset :=
      (tiles_scanFrom .start source.toList).pairwise
    rw [hsplit, List.pairwise_append] at hpairwise
    refine ⟨front ++ [t], fun u hu => ?_, ?_⟩
    · rcases List.mem_append.mp hu with hu | hu
      · exact (hpairwise.2.2 u hu t List.mem_cons_self).trans hlt
      · rwa [List.mem_singleton.mp hu]
    · rw [hcursor, List.append_assoc, List.singleton_append, ← hback]
      exact hsplit

theorem IsBoundary.find?_scanAll {source : String} {p : Nat} (h : IsBoundary source p)
    (hp : p ≤ source.toList.length) :
    (scanAll source).find? (fun t => !t.kind.isLayout && decide (p ≤ t.start.offset)) =
      (Cursor.atOffset source.toList p).tokens.head? := by
  obtain ⟨front, hfront, hscan⟩ := h.exists_scanAll_eq
  have hnone : front.find? (fun t => !t.kind.isLayout && decide (p ≤ t.start.offset)) = none := by
    rw [List.find?_eq_none]
    intro t ht
    simp [Nat.not_le.mpr (hfront t ht)]
  have hback := (tiles_scanFrom (Cursor.atOffset source.toList p).position
    (Cursor.atOffset source.toList p).rest).offset_bounds.2
  rw [Cursor.offset_atOffset hp] at hback
  rw [hscan, List.find?_append, hnone, Option.none_or, ← List.head?_filter,
    Cursor.tokens_eq_filter]
  refine congrArg List.head? (List.filter_congr fun t ht => ?_)
  simp [(hback t ht).1]

end Token

theorem skipIndex_of_isBoundary {source : String} {p : Nat} (hp : p ≤ source.toList.length)
    (h : Token.IsBoundary source p) :
    skipIndex source.toList p =
      ((Token.scanAll source).find? fun t => !t.kind.isLayout && decide (p ≤ t.start.offset)).elim
        source.length (·.start.offset) := by
  obtain ⟨-, hle⟩ := skipIndex_bounds hp
  rw [h.find?_scanAll hp, ← Cursor.tokens_skip]
  cases htokens : (Cursor.atOffset source.toList p).skip.tokens with
  | nil =>
      -- nothing is left behind the layout, so it goes on to the end of the text
      have hrest := Expr.rest_eq_nil_of_tokens_eq_nil (Cursor.skip_skip _) htokens
      rw [Cursor.skip_atOffset hp] at hrest
      have hend : source.toList.length ≤ skipIndex source.toList p := List.drop_eq_nil_iff.mp hrest
      rw [List.head?_nil, Option.elim_none, ← String.length_toList]
      omega
  | cons t ts =>
      rw [List.head?_cons, Option.elim_some, Cursor.start_of_tokens (Cursor.skip_skip _) htokens,
        Cursor.skip_atOffset hp, Cursor.offset_atOffset hle]

/-- Skipping goes over the longest run of layout at an offset, and agrees with the tokens. What it
goes over consists of blanks and comments, and no blank and no comment follows. It ends at the
same offset wherever it starts among the blanks and comments of the run; and where two tokens
meet, it ends at the first token from there on that is not layout, or at the end of the text. -/
theorem skipIndex_longest_layout (source : String) {p : Nat} (hp : p ≤ source.length) :
    p ≤ skipIndex source.toList p ∧ skipIndex source.toList p ≤ source.length ∧
    LayoutBefore (source.toList.drop (skipIndex source.toList p))
      ((source.toList.take (skipIndex source.toList p)).drop p) ∧
    (∀ c ∈ source.toList[skipIndex source.toList p]?, Text.isBlank c = false ∧ c ≠ '#') ∧
    (∀ front back, source.toList.drop p = front ++ back → LayoutBefore back front →
      skipIndex source.toList (p + front.length) = skipIndex source.toList p) ∧
    (Token.IsBoundary source p → skipIndex source.toList p =
      ((Token.scanAll source).find? fun t => !t.kind.isLayout && decide (p ≤ t.start.offset)).elim
        source.length (·.start.offset)) := by
  rw [← String.length_toList] at hp
  obtain ⟨hlow, hhigh⟩ := skipIndex_bounds hp
  rw [String.length_toList] at hhigh
  refine ⟨hlow, hhigh, ?_, fun c hc => ?_, fun front back hsource hlayout => ?_,
    fun hboundary => ?_⟩
  · rw [drop_skipIndex hp, take_skipIndex hp, List.drop_left' (List.length_take_of_le hp)]
    exact layoutBefore_layout _
  · have hnil := layout_skipLayout (source.toList.drop p)
    obtain ⟨cs, hcs⟩ := List.head?_eq_some_iff.mp (List.head?_drop.trans hc)
    rw [← drop_skipIndex hp, hcs, layout_cons_eq_nil_iff] at hnil
    exact Token.lexeme_not_layout hnil
  · exact skipIndex_of_layoutBefore hp hsource hlayout
  · exact skipIndex_of_isBoundary hp hboundary

theorem skipIndex_longest_layout_twoComments :
    1 ≤ "f # x\n #y\n(1)".length ∧ Token.IsBoundary "f # x\n #y\n(1)" 1 ∧
    skipIndex "f # x\n #y\n(1)".toList 1 =
      ((Token.scanAll "f # x\n #y\n(1)").find? fun t =>
        !t.kind.isLayout && decide (1 ≤ t.start.offset)).elim 13 (·.start.offset) ∧
    LayoutBefore "\n #y\n(1)".toList " # x".toList ∧
    skipIndex "f # x\n #y\n(1)".toList 5 = skipIndex "f # x\n #y\n(1)".toList 1 := by
  have hlength : 1 ≤ "f # x\n #y\n(1)".length := by decide
  have hboundary : Token.IsBoundary "f # x\n #y\n(1)" 1 :=
    .inr (show ∃ t ∈ Token.scanAll "f # x\n #y\n(1)", t.stop = 1 by decide +kernel)
  have hcomment : LayoutBefore "\n #y\n(1)".toList " # x".toList :=
    .blank rfl (.comment (show '\n' ∉ [' ', 'x'] by decide) (by simp) .nil)
  obtain ⟨-, -, -, -, hdrop, hnext⟩ := skipIndex_longest_layout "f # x\n #y\n(1)" hlength
  exact ⟨hlength, hboundary, hnext hboundary, hcomment, hdrop " # x".toList _ rfl hcomment⟩

end Egg
