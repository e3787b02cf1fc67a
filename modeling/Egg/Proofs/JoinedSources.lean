import Egg.Program
import Egg.Proofs.MoreInput
import Egg.Proofs.WrittenToken

namespace Egg

namespace Position

/-- The same place when whole lines are put before the text. -/
def behind (lines : List Char) (p : Position) : Position :=
  ⟨p.line + lines.count '\n', p.column, p.offset + lines.length⟩

theorem advance_behind (lines : List Char) (p : Position) (c : Char) :
    (p.behind lines).advance c = (p.advance c).behind lines := by
  unfold advance
  split
  · simp only [behind, Position.mk.injEq, true_and]
    omega
  · simp only [behind, Position.mk.injEq, true_and]
    omega

theorem after_behind (lines : List Char) (p : Position) (cs : List Char) :
    (p.behind lines).after cs = (p.after cs).behind lines := by
  induction cs generalizing p with
  | nil => rfl
  | cons c cs ih => rw [after_cons, after_cons, advance_behind, ih]

theorem behind_behind (lines more : List Char) (p : Position) :
    (p.behind more).behind lines = p.behind (lines ++ more) := by
  simp only [behind, List.count_append, List.length_append, Position.mk.injEq, true_and]
  omega

theorem after_newline (cs : List Char) :
    start.after (cs ++ ['\n']) = start.behind (cs ++ ['\n']) := by
  rw [after_eq, Text.lastLine_concat]
  simp [behind, start]

end Position

namespace Token

/-- The same token when whole lines are put before the text. -/
def behind (lines : List Char) (t : Token) : Token :=
  { t with start := t.start.behind lines }

theorem scanFrom_behind (emitLayout : Bool) (lines : List Char) (p : Position) (cs : List Char) :
    scanFrom emitLayout (p.behind lines) cs = (scanFrom emitLayout p cs).map (behind lines) := by
  fun_induction scanFrom emitLayout p cs with
  | case1 p => rw [scanFrom, List.map_nil]
  | case2 p c cs kind text hlexeme rest hemit ih =>
      rw [scanFrom, hlexeme, List.map_cons, ← ih, ← Position.after_behind]
      exact if_pos hemit
  | case3 p c cs kind text hlexeme rest hemit ih =>
      rw [scanFrom, hlexeme, ← ih, ← Position.after_behind]
      exact if_neg hemit

end Token

theorem Cursor.tokens_behind (lines : List Char) (p : Position) (cs : List Char) :
    (Cursor.mk (p.behind lines) cs).tokens = (Cursor.mk p cs).tokens.map (Token.behind lines) :=
  Token.scanFrom_behind false lines p cs

section Newline

theorem layout_append_newline (inComment : Bool) (cs more : List Char) :
    layout inComment (cs ++ '\n' :: more) =
      if layout inComment cs = cs then cs ++ '\n' :: layout false more
      else layout inComment cs := by
  have hnewline : ∀ b, layout b ('\n' :: more) = '\n' :: layout false more := by
    intro b
    have hblank : Text.isBlank '\n' = true := rfl
    simp [layout, hblank]
  obtain ⟨inside, hinside⟩ := layout_append inComment cs
  rw [hinside, hnewline]

theorem Atom.read?_append_newline {cs : List Char} {atom : Atom} (hvalid : atom.Valid)
    (h : read? cs = some atom) (more : List Char) : read? (cs ++ '\n' :: more) = some atom := by
  by_cases hall : atom.text = cs
  · rw [← hall]
    exact read?_text_append hvalid (boundary_cons rfl more)
  · exact read?_append h hall _

namespace Cursor

/-- More text behind the one at a cursor. -/
def append (c : Cursor) (more : List Char) : Cursor :=
  ⟨c.position, c.rest ++ more⟩

/-- The cursor behind the text at a cursor and a line feed, before another text. -/
def nextLine (c : Cursor) (more : List Char) : Cursor :=
  ⟨c.position.after (c.rest ++ ['\n']), more⟩

theorem append_move {c : Cursor} {text : List Char} (h : text <+: c.rest) (more : List Char) :
    (c.append more).move text = (c.move text).append more :=
  move_append h more

theorem append_next {c : Cursor} {a : Char} (h : c.rest.head? = some a) (more : List Char) :
    (c.append more).next = c.next.append more := by
  obtain ⟨cs, hrest⟩ := List.head?_eq_some_iff.mp h
  simp [next, append, move, hrest]

theorem nextLine_move {c : Cursor} {text : List Char} (h : text <+: c.rest) (more : List Char) :
    (c.move text).nextLine more = c.nextLine more := by
  obtain ⟨rest, hrest⟩ := h
  simp [nextLine, move, ← hrest, Position.after_append]

theorem skip_append_newline_of_rest_eq_nil {c : Cursor} (h : c.skip.rest = []) (more : List Char) :
    (c.append ('\n' :: more)).skip = (c.nextLine more).skip := by
  have hall : layout false c.rest = c.rest :=
    (layout_prefix_self false c.rest).eq_of_length_le (List.drop_eq_nil_iff.mp h)
  simp [skip, move, append, nextLine, layout_append_newline, hall, Position.after_append]

theorem skip_append_newline_of_rest_ne_nil {c : Cursor} (h : c.skip.rest ≠ []) (more : List Char) :
    (c.append ('\n' :: more)).skip = c.skip.append ('\n' :: more) := by
  have hall : layout false c.rest ≠ c.rest := by
    intro hall
    exact h (by simp [skip, move, hall])
  rw [skip, append, layout_append_newline, if_neg hall]
  exact append_move (layout_prefix_self false c.rest) _

/-- A line feed behind a text in which no string is left open adds nothing to its tokens and takes
nothing from those of the text behind it. -/
theorem tokens_append_newline {c : Cursor} (h : ∀ t ∈ c.tokens, t.kind ≠ .unclosed)
    (more : List Char) :
    (c.append ('\n' :: more)).tokens = c.tokens ++ (c.nextLine more).tokens := by
  induction hn : c.rest.length using Nat.strong_induction_on generalizing c with
  | h n ih =>
      subst hn
      rw [← tokens_skip c] at h ⊢
      by_cases hend : c.skip.rest = []
      · rw [tokens_of_rest_eq_nil hend, ← tokens_skip, skip_append_newline_of_rest_eq_nil hend,
          tokens_skip, List.nil_append]
      · rw [← tokens_skip, skip_append_newline_of_rest_ne_nil hend,
          ← nextLine_move (layout_prefix_self false c.rest), ← skip]
        have hfresh : (c.skip.append ('\n' :: more)).skip = c.skip.append ('\n' :: more) := by
          rw [← skip_append_newline_of_rest_ne_nil hend, skip_skip]
        have hle := c.length_skip_le
        cases front c.skip_skip with
        | finish hrest _ => exact absurd hrest hend
        | mark a kind hhead hmark htokens =>
            rw [htokens] at h ⊢
            have hhead' : (c.skip.append ('\n' :: more)).rest.head? = some a := by
              simp [append, hhead]
            have hlt := (length_next_lt hhead).trans_le hle
            rw [tokens_of_head? hfresh hhead' hmark, append_next hhead,
              ih _ hlt (List.forall_mem_cons.mp h).2 rfl, next,
              nextLine_move (List.take_prefix _ _)]
            rfl
        | atom atom hread htokens =>
            rw [htokens] at h ⊢
            have hread' : Atom.read? (c.skip.append ('\n' :: more)).rest = some atom :=
              Atom.read?_append_newline (valid_of_read? c.skip_skip hread) hread more
            have htext := Atom.text_prefix_of_read? hread
            have hlt := (length_move_lt hend (Atom.text_ne_nil_of_read? hread)).trans_le hle
            rw [tokens_of_read? hfresh hread', append_move htext,
              ih _ hlt (List.forall_mem_cons.mp h).2 rfl, nextLine_move htext]
            rfl
        | unclosed _ _ htokens =>
            rw [htokens] at h
            exact absurd rfl (h _ (List.mem_singleton.mpr rfl))

end Cursor

end Newline

namespace Token

theorem hasUnclosed_eq_false_iff {ts : List Token} :
    hasUnclosed ts = false ↔ ∀ t ∈ ts, t.kind ≠ .unclosed := by
  simp [hasUnclosed]

theorem scan_newline {source : String} (h : hasUnclosed (scan source) = false) (more : String) :
    scan (source ++ "\n" ++ more) =
      scan source ++ (scan more).map (behind (source.toList ++ ['\n'])) := by
  have hline := Cursor.tokens_append_newline (c := .ofText source.toList)
    (hasUnclosed_eq_false_iff.mp h) more.toList
  have hplace : (Cursor.ofText source.toList).nextLine more.toList =
      ⟨Position.start.behind (source.toList ++ ['\n']), more.toList⟩ :=
    congrArg (Cursor.mk · more.toList) (Position.after_newline source.toList)
  rw [hplace, Cursor.tokens_behind] at hline
  rw [← Cursor.tokens_ofText, ← Cursor.tokens_ofText, ← Cursor.tokens_ofText]
  simpa [Cursor.append, Cursor.ofText] using hline

theorem depth_behind (lines : List Char) (ts : List Token) :
    depth (ts.map (behind lines)) = depth ts := by
  simp [depth_eq_sum, behind, Function.comp_def]

theorem hasUnclosed_behind (lines : List Char) (ts : List Token) :
    hasUnclosed (ts.map (behind lines)) = hasUnclosed ts := by
  rw [hasUnclosed, List.any_map]
  rfl

theorem depth_flatten (tss : List (List Token)) : depth tss.flatten = (tss.map depth).sum := by
  induction tss with
  | nil => rfl
  | cons ts tss ih => rw [List.flatten_cons, depth_append, ih, List.map_cons, List.sum_cons]

theorem hasUnclosed_flatten (tss : List (List Token)) :
    hasUnclosed tss.flatten = (tss.map hasUnclosed).any id := by
  rw [hasUnclosed, List.any_flatten, List.any_map]
  rfl

theorem behind_behind (lines more : List Char) (t : Token) :
    (t.behind more).behind lines = t.behind (lines ++ more) := by
  simp only [behind, Position.behind_behind]

end Token

namespace Program

open Token

/-- The lines that stand before a source when sources are joined. -/
def linesBefore (sources : List String) (i : Nat) : List Char :=
  (sources.take i).flatMap fun s => s.toList ++ ['\n']

theorem linesBefore_cons (s : String) (sources : List String) (i : Nat) :
    linesBefore (s :: sources) (i + 1) = (s.toList ++ ['\n']) ++ linesBefore sources i := rfl

theorem join_cons {sources : List String} (h : sources ≠ []) (s : String) :
    join (s :: sources) = s ++ "\n" ++ join sources :=
  String.intercalate_cons_of_ne_nil h

theorem linesBefore_prefix {sources : List String} {i : Nat} {s : String}
    (h : sources[i]? = some s) : linesBefore sources i ++ s.toList <+: (join sources).toList := by
  induction sources generalizing i with
  | nil => simp at h
  | cons first sources ih =>
      rcases eq_or_ne sources [] with rfl | hne
      · obtain ⟨rfl, rfl⟩ : i = 0 ∧ first = s := by simpa [List.getElem?_singleton] using h
        simp [linesBefore, join]
      · rw [join_cons hne, String.toList_append, String.toList_append]
        rcases i with _ | i
        · obtain rfl : first = s := by simpa using h
          rw [List.append_assoc]
          exact List.prefix_append _ _
        · rw [linesBefore_cons, List.append_assoc]
          exact (List.prefix_append_right_inj _).mpr (ih h)

theorem scan_join {sources : List String}
    (hclosed : ∀ s ∈ sources.dropLast, hasUnclosed (scan s) = false) :
    scan (join sources) =
      (sources.mapIdx fun i s => (scan s).map (behind (linesBefore sources i))).flatten := by
  have hfirst : ∀ ts : List Token, ts.map (behind []) = ts := fun ts => List.map_id ts
  induction sources with
  | nil => exact Cursor.tokens_of_rest_eq_nil (c := .ofText (join []).toList) rfl
  | cons first sources ih =>
      rw [List.mapIdx_cons, List.flatten_cons]
      change _ = (scan first).map (behind []) ++ _
      rw [hfirst]
      rcases eq_or_ne sources [] with rfl | hne
      · simp [join]
      · rw [List.dropLast_cons_of_ne_nil hne, List.forall_mem_cons] at hclosed
        rw [join_cons hne, scan_newline hclosed.1, ih hclosed.2, List.map_flatten]
        congr 2
        -- the lines before a later source are the first source and those before it among the others
        refine List.ext_getElem? fun i => ?_
        simp [linesBefore_cons, behind_behind, Function.comp_def]

theorem map_joined {α : Type} {g : List Token → α}
    (hg : ∀ lines ts, g (ts.map (behind lines)) = g ts) (sources : List String) :
    (sources.mapIdx fun i s => (scan s).map (behind (linesBefore sources i))).map g =
      sources.map fun s => g (scan s) := by
  refine List.ext_getElem? fun i => ?_
  simp [hg, Function.comp_def]

/-- Sources that are joined by line feeds have their tokens one after the other. If no source but
the last has an open string, each token is the one of its source, moved on by the lines before
that source; so the parentheses left open add up, and a string is left open exactly if the last
source leaves one open. -/
theorem tokens_of_joined_sources (sources : List String) (hne : sources ≠ [])
    (hclosed : ∀ s ∈ sources.dropLast, hasUnclosed (scan s) = false) :
    (∀ i s, sources[i]? = some s → linesBefore sources i ++ s.toList <+: (join sources).toList) ∧
    scan (join sources) =
      (sources.mapIdx fun i s => (scan s).map (behind (linesBefore sources i))).flatten ∧
    depth (scan (join sources)) = (sources.map fun s => depth (scan s)).sum ∧
    hasUnclosed (scan (join sources)) = hasUnclosed (scan (sources.getLast hne)) := by
  refine ⟨fun i s => linesBefore_prefix, scan_join hclosed, ?_, ?_⟩
  · rw [scan_join hclosed, depth_flatten, map_joined depth_behind]
  · rw [scan_join hclosed, hasUnclosed_flatten, map_joined hasUnclosed_behind, List.any_map]
    have hfront : (sources.dropLast.any fun s => hasUnclosed (scan s)) = false := by
      simpa using hclosed
    calc
      (sources.any fun s => hasUnclosed (scan s)) =
          (sources.dropLast ++ [sources.getLast hne]).any fun s => hasUnclosed (scan s) := by
        rw [List.dropLast_append_getLast hne]
      _ = hasUnclosed (scan (sources.getLast hne)) := by
        rw [List.any_append, hfront, Bool.false_or, List.any_cons, List.any_nil, Bool.or_false]

theorem tokens_of_joined_sources_openEnd :
    ["f( # (", "12", "", "a,\n\"b"] ≠ [] ∧
    (∀ s ∈ ["f( # (", "12", "", "a,\n\"b"].dropLast, hasUnclosed (scan s) = false) ∧
    scan (join ["f( # (", "12", "", "a,\n\"b"]) =
      [⟨.word, "f", ⟨1, 1, 0⟩⟩, ⟨.opening, "(", ⟨1, 2, 1⟩⟩, ⟨.number, "12", ⟨2, 1, 7⟩⟩,
        ⟨.word, "a", ⟨4, 1, 11⟩⟩, ⟨.comma, ",", ⟨4, 2, 12⟩⟩, ⟨.unclosed, "\"b", ⟨5, 1, 14⟩⟩] ∧
    depth (scan (join ["f( # (", "12", "", "a,\n\"b"])) = 1 ∧
    hasUnclosed (scan (join ["f( # (", "12", "", "a,\n\"b"])) = true := by
  have hclosed : ∀ s ∈ ["f( # (", "12", "", "a,\n\"b"].dropLast, hasUnclosed (scan s) = false := by
    decide +kernel
  obtain ⟨-, htokens, hdepth, hunclosed⟩ := tokens_of_joined_sources _ (by decide) hclosed
  refine ⟨by decide, hclosed, htokens.trans ?_, hdepth.trans ?_, hunclosed.trans ?_⟩
  · decide +kernel
  · decide +kernel
  · decide +kernel

end Program

end Egg
