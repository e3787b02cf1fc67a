import Egg.Proofs.Tiling
import Egg.Text.Lines
import Mathlib.Data.Prod.Lex

namespace Egg

theorem lineCol_eq (source : List Char) (p : Nat) :
    lineCol source p = ((source.take p).count '\n' + 1,
      p - (source.take p).length + (Text.lastLine (source.take p)).length + 1) := rfl

section ReadingOrder

theorem lineCol_succ (source : List Char) (p : Nat) :
    lineCol source (p + 1) =
      if source[p]? = some '\n' then ((lineCol source p).1 + 1, 1)
      else ((lineCol source p).1, (lineCol source p).2 + 1) := by
  rw [lineCol_eq, lineCol_eq, List.take_add_one]
  cases hp : source[p]? with
  | none =>
      -- beyond the end nothing is added to the text, and the offset itself moves on
      have hle : source.length ≤ p := List.getElem?_eq_none_iff.mp hp
      simp only [Option.toList_none, List.append_nil, List.length_take, reduceCtorEq, if_false,
        Prod.mk.injEq, true_and]
      omega
  | some c =>
      have hlt : p < source.length := (List.getElem?_eq_some_iff.mp hp).1
      rw [Option.toList_some, Text.lastLine_concat]
      by_cases hc : c = '\n'
      · simp [hc]
        omega
      · simp [hc]
        omega

theorem lineCol_lt_succ (source : List Char) (p : Nat) :
    toLex (lineCol source p) < toLex (lineCol source (p + 1)) := by
  rw [lineCol_succ, Prod.Lex.toLex_lt_toLex]
  split_ifs
  · exact .inl (Nat.lt_succ_self _)
  · exact .inr ⟨rfl, Nat.lt_succ_self _⟩

theorem strictMono_lineCol (source : List Char) : StrictMono fun p => toLex (lineCol source p) :=
  strictMono_nat_of_lt_succ (lineCol_lt_succ source)

end ReadingOrder

section LineLengths

theorem lineCol_cons_newline (cs : List Char) (p : Nat) :
    lineCol ('\n' :: cs) (p + 1) = ((lineCol cs p).1 + 1, (lineCol cs p).2) := by
  induction p with
  | zero => simp [lineCol]
  | succ p ih =>
      rw [lineCol_succ, ih, List.getElem?_cons_succ, lineCol_succ]
      split_ifs <;> rfl

theorem lineCol_cons_of_ne {c : Char} (hc : c ≠ '\n') (cs : List Char) (p : Nat) :
    lineCol (c :: cs) (p + 1) =
      ((lineCol cs p).1,
        if (lineCol cs p).1 = 1 then (lineCol cs p).2 + 1 else (lineCol cs p).2) := by
  induction p with
  | zero => simp [lineCol, hc]
  | succ p ih =>
      rw [lineCol_succ, ih, List.getElem?_cons_succ, lineCol_succ]
      split_ifs <;> simp_all [lineCol_eq]

namespace Text

theorem lines_eq_splitOn (cs : List Char) : lines cs = cs.splitOn '\n' := by
  induction cs with
  | nil => rfl
  | cons c cs ih =>
      rw [List.splitOn, List.splitOnP_cons_eq_if_modifyHead, ← List.splitOn, ← ih, lines]
      by_cases hc : c = '\n'
      · simp [hc]
      · simp only [if_neg hc, beq_iff_eq]
        cases hlines : lines cs with
        | nil => exact absurd (ih.symm.trans hlines) (List.splitOn_ne_nil _ _)
        | cons line rest => rfl

theorem lines_ne_nil (cs : List Char) : lines cs ≠ [] := by
  rw [lines_eq_splitOn]
  exact List.splitOn_ne_nil _ _

theorem lines_cons_of_ne {c : Char} (hc : c ≠ '\n') {cs line : List Char}
    {others : List (List Char)}
    (h : lines cs = line :: others) : lines (c :: cs) = (c :: line) :: others := by
  rw [lines, if_neg hc, h]

/-- How many characters some lines take up, each with the line feed that ends it. -/
def extent : List (List Char) → Nat
  | [] => 0
  | line :: lines => line.length + 1 + extent lines

end Text

/-- The line of an offset is a line of the text, its column stands in that line or at its end, and
what is before that line leads up to the offset. -/
theorem exists_line_of_le {source : List Char} {p : Nat} (hp : p ≤ source.length) :
    ∃ before line behind column, Text.lines source = before ++ line :: behind ∧
      lineCol source p = (before.length + 1, column + 1) ∧ column ≤ line.length ∧
      p = Text.extent before + column := by
  induction source generalizing p with
  | nil =>
      obtain rfl : p = 0 := Nat.le_zero.mp hp
      exact ⟨[], [], [], 0, rfl, rfl, Nat.le_refl 0, rfl⟩
  | cons c cs ih =>
      rcases p with _ | p
      · obtain ⟨line, others, hlines⟩ := List.exists_cons_of_ne_nil (Text.lines_ne_nil (c :: cs))
        exact ⟨[], line, others, 0, hlines, rfl, Nat.zero_le _, rfl⟩
      · obtain ⟨before, line, behind, column, hlines, hplace, hcolumn, rfl⟩ :=
          ih (Nat.le_of_succ_le_succ hp)
        by_cases hc : c = '\n'
        · subst hc
          refine ⟨[] :: before, line, behind, column, ?_, ?_, hcolumn, ?_⟩
          · rw [Text.lines, if_pos rfl, hlines, List.cons_append]
          · rw [lineCol_cons_newline, hplace, List.length_cons]
          · rw [Text.extent, List.length_nil]
            omega
        · rcases before with _ | ⟨first, before⟩
          · -- the offset is on the first line, which grows by the new character
            refine ⟨[], c :: line, behind, column + 1, Text.lines_cons_of_ne hc hlines, ?_, ?_, ?_⟩
            · rw [lineCol_cons_of_ne hc, hplace]
              rfl
            · rw [List.length_cons]
              omega
            · omega
          · refine ⟨(c :: first) :: before, line, behind, column, Text.lines_cons_of_ne hc hlines,
              ?_, hcolumn, ?_⟩
            · rw [lineCol_cons_of_ne hc, hplace]
              simp
            · rw [Text.extent, Text.extent, List.length_cons]
              omega

end LineLengths

/-- Line and column identify an offset. Of two offsets, also beyond the end of the text, the later
one has the later place in reading order. The line of an offset in the text, counted from one, is
a line of the text, and the column, counted from one as well, is at most one beyond its length;
the offset is made up of the columns before it and of all earlier lines, each with its line feed.
-/
theorem lineCol_identifies_offset (source : List Char) :
    (∀ p q, p < q → toLex (lineCol source p) < toLex (lineCol source q)) ∧
    ∀ p ≤ source.length, ∃ before line behind column,
      source.splitOn '\n' = before ++ line :: behind ∧
      lineCol source p = (before.length + 1, column + 1) ∧ column ≤ line.length ∧
      p = Text.extent before + column := by
  refine ⟨fun p q h => strictMono_lineCol source h, fun p hp => ?_⟩
  rw [← Text.lines_eq_splitOn]
  exact exists_line_of_le hp

theorem lineCol_identifies_offset_emptyLine :
    toLex (lineCol "ab\n\nc".toList 2) < toLex (lineCol "ab\n\nc".toList 3) ∧
    toLex (lineCol "ab\n\nc".toList 5) < toLex (lineCol "ab\n\nc".toList 9) ∧
    3 ≤ "ab\n\nc".toList.length ∧ ∃ before line behind column,
      "ab\n\nc".toList.splitOn '\n' = before ++ line :: behind ∧
      lineCol "ab\n\nc".toList 3 = (before.length + 1, column + 1) ∧ column ≤ line.length ∧
      3 = Text.extent before + column := by
  obtain ⟨horder, hlines⟩ := lineCol_identifies_offset "ab\n\nc".toList
  have hlength : 3 ≤ "ab\n\nc".toList.length := by decide
  exact ⟨horder 2 3 (by decide), horder 5 9 (by decide), hlength, hlines 3 hlength⟩

end Egg
