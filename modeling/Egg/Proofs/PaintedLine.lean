import Egg.Highlight
import Egg.Proofs.JoinedSources
import Egg.Proofs.LineColumn

namespace Egg

namespace Text

theorem newline_notMem_of_mem_lines {cs line : List Char} (h : line ∈ lines cs) : '\n' ∉ line := by
  induction cs generalizing line with
  | nil =>
      rw [List.mem_singleton.mp h]
      exact List.not_mem_nil
  | cons c cs ih =>
      rw [lines] at h
      split at h
      · rcases List.mem_cons.mp h with rfl | h
        · exact List.not_mem_nil
        · exact ih h
      · rename_i hc
        cases hlines : lines cs with
        | nil => exact absurd hlines (lines_ne_nil cs)
        | cons first rest =>
            rw [hlines] at h ih
            rcases List.mem_cons.mp h with rfl | h
            · simp [Ne.symm hc, ih List.mem_cons_self]
            · exact ih (List.mem_cons_of_mem _ h)

end Text

namespace Token

theorem lexeme_quote (cs : List Char) :
    lexeme '"' cs =
      if '"' ∈ cs then (.string, '"' :: (cs.takeWhile (· ≠ '"') ++ ['"']))
      else (.unclosed, '"' :: cs) := by
  have hlayout : (lexeme '"' cs).1.isLayout = false := isLayout_lexeme '"' cs
  rw [lexeme_of_not_mark hlayout rfl, Atom.read?_quote, Atom.string?]
  by_cases hquote : '"' ∈ cs
  · simp [hquote, Kind.ofAtom, Atom.text]
  · simp [hquote]

theorem exists_broken_of_unclosed {p : Position} {cs : List Char} {t : Token}
    (ht : t ∈ scanFrom true p cs) (hkind : t.kind = .unclosed) (more : List Char) :
    ∃ u ∈ scanFrom true p (cs ++ '\n' :: more),
      (u.kind = .string ∨ u.kind = .unclosed) ∧ '\n' ∈ u.text.toList := by
  induction hn : cs.length using Nat.strong_induction_on generalizing p cs with
  | h n ih =>
      subst hn
      rcases cs with _ | ⟨a, cs⟩
      · simp [scanFrom] at ht
      · obtain ⟨rest, hrest, hne, hscan⟩ := scanFrom_cons p a cs
        obtain ⟨rest', hrest', -, hscan'⟩ := scanFrom_cons p a (cs ++ '\n' :: more)
        rw [List.cons_append, hscan']
        by_cases hfirst : (lexeme a cs).1 = .unclosed
        · obtain ⟨-, rfl, hquote⟩ := lexeme_unclosed hfirst
          have hall : ∀ c ∈ cs, decide (c ≠ '"') = true := by
            intro c hc
            have hne : c ≠ '"' := fun h => hquote (h ▸ hc)
            simpa using hne
          refine ⟨_, List.mem_cons_self, ?_⟩
          rw [first, lexeme_quote]
          split
          · rw [List.takeWhile_append_of_pos hall]
            simp
          · simp
        · rw [hscan] at ht
          have htail : t ∈ scanFrom true (p.after (first p a cs).text.toList) rest := by
            rcases List.mem_cons.mp ht with rfl | ht
            · exact absurd hkind hfirst
            · exact ht
          -- the first token is not the last one, so it ends before the line feed
          have hsame : lexeme a (cs ++ '\n' :: more) = lexeme a cs := by
            rcases lexeme_append hfirst ('\n' :: more) with hsame | ⟨hwhole, -⟩
            · exact hsame
            · have hnil : rest = [] := by simpa [first, hwhole] using hrest
              simp [hnil, scanFrom] at htail
          have hfirst' : first p a (cs ++ '\n' :: more) = first p a cs := by
            rw [first, first, hsame]
          have hmore : rest' = rest ++ '\n' :: more := by
            rw [hfirst', ← List.cons_append, hrest, List.append_assoc] at hrest'
            exact (List.append_cancel_left hrest').symm
          have hlt : rest.length < (a :: cs).length := by
            rw [hrest, List.length_append]
            have := List.length_pos_iff.mpr hne
            omega
          obtain ⟨u, hu, hbroken⟩ := ih rest.length hlt htail rfl
          refine ⟨u, List.mem_cons_of_mem _ ?_, hbroken⟩
          rw [hfirst', hmore]
          exact hu

end Token

namespace Program

open Token

def split (document : String) : List String :=
  (Text.lines document.toList).map String.ofList

theorem join_split (document : String) : join (split document) = document := by
  rw [← String.toList_inj, join, String.toList_intercalate, split, List.map_map]
  have hid : String.toList ∘ String.ofList = id := by
    funext cs
    simp
  rw [hid, List.map_id, Text.lines_eq_splitOn]
  exact List.intercalate_splitOn '\n'

theorem newline_notMem_of_mem_split {document line : String} (h : line ∈ split document) :
    '\n' ∉ line.toList := by
  obtain ⟨cs, hcs, rfl⟩ := List.mem_map.mp h
  rw [String.toList_ofList]
  exact Text.newline_notMem_of_mem_lines hcs

/-- Where no string goes on over the end of a line, no line but the last leaves one open. -/
theorem closed_of_unbroken {lines : List String}
    (h : ∀ t ∈ scan (join lines), t.kind = .string ∨ t.kind = .unclosed → '\n' ∉ t.text.toList) :
    ∀ line ∈ lines.dropLast, hasUnclosed (scan line) = false := by
  induction lines with
  | nil => simp
  | cons line lines ih =>
      rcases eq_or_ne lines [] with rfl | hne
      · simp
      · rw [join_cons hne] at h
        have hclosed : hasUnclosed (scan line) = false := by
          rw [hasUnclosed_eq_false_iff]
          intro t ht hkind
          obtain ⟨u, hu, hbroken, hmem⟩ :=
            exists_broken_of_unclosed (mem_scan_iff.mp ht).1 hkind (join lines).toList
          refine h u (mem_scan_iff.mpr ⟨?_, ?_⟩) hbroken hmem
          · simpa [scanAll] using hu
          · rcases hbroken with hkind | hkind <;> simp [hkind, Kind.isLayout]
        rw [List.dropLast_cons_of_ne_nil hne, List.forall_mem_cons]
        refine ⟨hclosed, ih fun t ht hkind => ?_⟩
        rw [scan_newline hclosed] at h
        exact h (t.behind (line.toList ++ ['\n']))
          (List.mem_append_right _ (List.mem_map_of_mem ht)) hkind

theorem count_linesBefore {lines : List String} (h : ∀ line ∈ lines, '\n' ∉ line.toList) {i : Nat}
    (hi : i ≤ lines.length) : (linesBefore lines i).count '\n' = i := by
  induction lines generalizing i with
  | nil =>
      obtain rfl : i = 0 := by simpa using hi
      rfl
  | cons line lines ih =>
      rcases i with _ | i
      · rfl
      · obtain ⟨hline, hlines⟩ := List.forall_mem_cons.mp h
        rw [linesBefore_cons, List.count_append, ih hlines (by simpa using hi), List.count_append,
          List.count_eq_zero_of_not_mem hline, List.count_singleton_self]
        omega

theorem line_of_mem_scan {text : String} (h : '\n' ∉ text.toList) {t : Token} (ht : t ∈ scan text) :
    t.start.line = 1 := by
  obtain ⟨front, back, hsplit⟩ := List.append_of_mem (mem_scan_iff.mp ht).1
  obtain ⟨before, a, rest, htext, rfl, -⟩ := scanFrom_split hsplit
  have hbefore : '\n' ∉ before := fun hmem => h (by rw [htext]; exact List.mem_append_left _ hmem)
  rw [first, Position.after_eq]
  simp [Position.start, List.count_eq_zero_of_not_mem hbefore]

theorem filter_flatten_of_key {α : Type} {xss : List (List α)} {key : α → Nat} {n : Nat}
    (h : ∀ j xs, xss[j]? = some xs → ∀ x ∈ xs, key x = n + j) (i : Nat) :
    xss.flatten.filter (key · = n + i) = xss[i]?.getD [] := by
  induction xss generalizing n i with
  | nil => simp
  | cons xs xss ih =>
      have hfirst : ∀ x ∈ xs, key x = n := h 0 xs rfl
      have hrest : ∀ j ys, xss[j]? = some ys → ∀ x ∈ ys, key x = n + 1 + j := by
        intro j ys hj x hx
        rw [h (j + 1) ys hj x hx]
        omega
      rw [List.flatten_cons, List.filter_append]
      rcases i with _ | i
      · have hnone : xss.flatten.filter (key · = n + 0) = [] := by
          rw [List.filter_eq_nil_iff]
          intro x hx
          obtain ⟨ys, hys, hx⟩ := List.mem_flatten.mp hx
          obtain ⟨j, hj⟩ := List.getElem?_of_mem hys
          rw [decide_eq_true_eq, hrest j ys hj x hx]
          omega
        rw [hnone, List.append_nil, List.filter_eq_self.mpr fun x hx => by simp [hfirst x hx]]
        rfl
      · have hnone : xs.filter (key · = n + (i + 1)) = [] := by
          rw [List.filter_eq_nil_iff]
          intro x hx
          simp [hfirst x hx]
        rw [hnone, List.nil_append, show n + (i + 1) = n + 1 + i by omega, ih hrest]
        rfl

theorem filter_scan_join {lines : List String} (hlines : ∀ line ∈ lines, '\n' ∉ line.toList)
    (hclosed : ∀ line ∈ lines.dropLast, hasUnclosed (scan line) = false) (i : Nat) :
    (scan (join lines)).filter (·.start.line = i + 1) =
      ((lines[i]?.map scan).getD []).map (behind (linesBefore lines i)) := by
  rw [scan_join hclosed, Nat.add_comm, filter_flatten_of_key]
  · cases hline : lines[i]? with
    | none => simp [hline]
    | some line => simp [hline]
  · intro j ts hj t ht
    obtain ⟨line, hline, rfl⟩ : ∃ line, lines[j]? = some line ∧
        (scan line).map (behind (linesBefore lines j)) = ts := by
      simpa using hj
    obtain ⟨u, hu, rfl⟩ := List.mem_map.mp ht
    have hlt : j < lines.length := (List.getElem?_eq_some_iff.mp hline).1
    change u.start.line + (linesBefore lines j).count '\n' = 1 + j
    rw [line_of_mem_scan (hlines line (List.mem_of_getElem? hline)) hu,
      count_linesBefore hlines hlt.le]

end Program

namespace Highlight

def Fragment.ofToken (t : Token) : Fragment :=
  ⟨(Group.ofToken t).style, t.text⟩

/-- Whether a fragment is empty, blank or a comment. -/
def Fragment.isLayout (f : Fragment) : Bool :=
  f.text.toList.all Text.isBlank || f.text.toList.head? = some '#'

theorem line_of_ne_empty {text : String} (h : text ≠ "") :
    line text = (Token.scanAll text).map Fragment.ofToken := by
  rw [line, if_neg (by simpa using h)]
  rfl

theorem flatMap_scanFrom (p : Position) (cs : List Char) :
    (Token.scanFrom true p cs).flatMap (·.text.toList) = cs := by
  induction hn : cs.length using Nat.strong_induction_on generalizing p cs with
  | h n ih =>
      subst hn
      rcases cs with _ | ⟨a, cs⟩
      · simp [Token.scanFrom]
      · obtain ⟨rest, hrest, hne, hscan⟩ := Token.scanFrom_cons p a cs
        have hlt : rest.length < (a :: cs).length := by
          rw [hrest, List.length_append]
          have := List.length_pos_iff.mpr hne
          omega
        rw [hscan, List.flatMap_cons, ih rest.length hlt _ _ rfl, ← hrest]

theorem join_line (text : String) : String.join ((line text).map Fragment.text) = text := by
  by_cases h : text = ""
  · subst h
    rfl
  · rw [← String.toList_inj, String.toList_join, line_of_ne_empty h, List.map_map, List.flatMap_map]
    exact flatMap_scanFrom .start text.toList

theorem isLayout_ofToken {text : String} {t : Token} (h : t ∈ Token.scanAll text) :
    (Fragment.ofToken t).isLayout = t.kind.isLayout := by
  obtain ⟨front, back, hsplit⟩ := List.append_of_mem h
  obtain ⟨before, a, rest, -, rfl, -⟩ := Token.scanFrom_split hsplit
  simp only [Fragment.isLayout, Fragment.ofToken, Token.first, String.toList_ofList]
  cases hlayout : (Token.lexeme a rest).1.isLayout with
  | true =>
      rcases Token.lexeme_layout_cases hlayout with ⟨hblank, hlexeme⟩ | ⟨-, rfl, hlexeme⟩
      · have hall : (rest.takeWhile Text.isBlank).all Text.isBlank = true :=
          List.all_eq_true.mpr fun c hc => List.mem_takeWhile_imp hc
        simp only [hlexeme, List.all_cons, hblank, hall, Bool.and_true, Bool.true_or]
      · simp [hlexeme]
  | false =>
      obtain ⟨hblank, hcomment⟩ := Token.lexeme_not_layout hlayout
      obtain ⟨c, cs, hlexeme⟩ := List.exists_cons_of_ne_nil (Token.lexeme_ne_nil a rest)
      have hprefix := Token.lexeme_prefix a rest
      rw [hlexeme, List.cons_prefix_cons] at hprefix
      simp [hlexeme, hprefix.1, hblank, hcomment]

theorem filter_line (text : String) :
    (line text).filter (!·.isLayout) = (Token.scan text).map Fragment.ofToken := by
  by_cases h : text = ""
  · subst h
    decide +kernel
  · rw [line_of_ne_empty h, List.filter_map, Token.scan_eq_filter]
    congr 1
    exact List.filter_congr fun t ht => by simp [isLayout_ofToken ht]

theorem filter_lineOf {document : String}
    (hunbroken : ∀ t ∈ Token.scan document, t.kind = .string ∨ t.kind = .unclosed →
      '\n' ∉ t.text.toList) (i : Nat) :
    (lineOf document i).filter (!·.isLayout) =
      ((Token.scan document).filter (·.start.line = i + 1)).map Fragment.ofToken := by
  have hclosed : ∀ line ∈ (Program.split document).dropLast,
      Token.hasUnclosed (Token.scan line) = false :=
    Program.closed_of_unbroken (by rwa [Program.join_split])
  have htokens := Program.filter_scan_join
    (fun line hline => Program.newline_notMem_of_mem_split hline) hclosed i
  -- the place of a token leaves no trace in its fragment
  have hplace : ∀ lines, Fragment.ofToken ∘ Token.behind lines = Fragment.ofToken :=
    fun lines => rfl
  rw [Program.join_split] at htokens
  rw [htokens, List.map_map, hplace, lineOf, Program.split, List.getElem?_map]
  cases (Text.lines document.toList)[i]? with
  | none => decide
  | some cs => exact filter_line _

namespace Painter

/-- That the fragments kept for a line are those of the line. -/
def Faithful (p : Painter) : Prop :=
  ∀ number fragments, p.painted.lookup number = some fragments →
    fragments = lineOf p.document number

theorem faithful_start (document : String) : (start document).Faithful := by
  intro number fragments h
  cases h

theorem ask_of_faithful {p : Painter} (h : p.Faithful) (number : Nat) :
    (p.ask number).1 = lineOf p.document number ∧ (p.ask number).2.document = p.document ∧
      (p.ask number).2.Faithful := by
  unfold ask
  split
  · rename_i fragments hlookup
    exact ⟨h number fragments hlookup, rfl, h⟩
  · refine ⟨rfl, rfl, fun n fragments hn => ?_⟩
    rw [List.lookup_cons] at hn
    split at hn
    · rename_i heq
      cases hn
      rw [beq_iff_eq.mp heq]
    · exact h n fragments hn

theorem askAll_of_faithful {p : Painter} (h : p.Faithful) (numbers : List Nat) :
    p.askAll numbers = numbers.map (lineOf p.document) := by
  induction numbers generalizing p with
  | nil => rfl
  | cons number numbers ih =>
      obtain ⟨hanswer, hdocument, hfaithful⟩ := ask_of_faithful h number
      change (p.ask number).1 :: (p.ask number).2.askAll numbers = _
      rw [ih hfaithful, hanswer, hdocument, List.map_cons]

end Painter

/-- Lines that are coloured one by one agree with the document. Whatever lines are asked for, in
whichever order and how often, the fragments given for a line that there is make up this line. If
no string of the document, closed or not, goes on over the end of a line, the fragments given for
a line, those that are empty, blank or comments aside, are the tokens that the document has on
this line, in order and each in its style. -/
theorem lines_agree_with_document (document : String) (numbers : List Nat) :
    ((Painter.start document).askAll numbers).length = numbers.length ∧
    (∀ i fragments, (i, fragments) ∈ numbers.zip ((Painter.start document).askAll numbers) →
      ∀ cs, (Text.lines document.toList)[i]? = some cs →
        String.join (fragments.map Fragment.text) = String.ofList cs) ∧
    ((∀ t ∈ Token.scan document, t.kind = .string ∨ t.kind = .unclosed → '\n' ∉ t.text.toList) →
      ∀ i fragments, (i, fragments) ∈ numbers.zip ((Painter.start document).askAll numbers) →
        fragments.filter (!·.isLayout) =
          ((Token.scan document).filter (·.start.line = i + 1)).map Fragment.ofToken) := by
  have hanswers := Painter.askAll_of_faithful (Painter.faithful_start document) numbers
  have hzip : ∀ i fragments,
      (i, fragments) ∈ numbers.zip ((Painter.start document).askAll numbers) →
      fragments = lineOf document i := by
    intro i fragments h
    rw [hanswers, ← List.map_id numbers, List.map_map, List.zip_map', List.mem_map] at h
    obtain ⟨number, -, hpair⟩ := h
    cases hpair
    rfl
  refine ⟨by rw [hanswers, List.length_map], fun i fragments h cs hcs => ?_,
    fun hunbroken i fragments h => ?_⟩
  · rw [hzip i fragments h, lineOf, hcs]
    exact join_line _
  · rw [hzip i fragments h]
    exact filter_lineOf hunbroken i

theorem lines_agree_with_document_commented :
    (∀ t ∈ Token.scan "do(12, \t# (\n  true)", t.kind = .string ∨ t.kind = .unclosed →
      '\n' ∉ t.text.toList) ∧
    (Painter.start "do(12, \t# (\n  true)").askAll [1, 0, 1, 7] =
      [[⟨"", "  "⟩, ⟨"ansicyan", "true"⟩, ⟨"", ")"⟩],
        [⟨"bold ansicyan", "do"⟩, ⟨"", "("⟩, ⟨"ansimagenta", "12"⟩, ⟨"", ","⟩, ⟨"", " \t"⟩,
          ⟨"italic ansigray", "# ("⟩],
        [⟨"", "  "⟩, ⟨"ansicyan", "true"⟩, ⟨"", ")"⟩],
        [⟨"", ""⟩]] ∧
    ((Token.scan "do(12, \t# (\n  true)").filter (·.start.line = 1)).map Fragment.ofToken =
      [⟨"bold ansicyan", "do"⟩, ⟨"", "("⟩, ⟨"ansimagenta", "12"⟩, ⟨"", ","⟩] := by
  have hunbroken : ∀ t ∈ Token.scan "do(12, \t# (\n  true)", t.kind = .string ∨ t.kind = .unclosed →
      '\n' ∉ t.text.toList := by decide +kernel
  have hanswers : (Painter.start "do(12, \t# (\n  true)").askAll [1, 0, 1, 7] =
      [[⟨"", "  "⟩, ⟨"ansicyan", "true"⟩, ⟨"", ")"⟩],
        [⟨"bold ansicyan", "do"⟩, ⟨"", "("⟩, ⟨"ansimagenta", "12"⟩, ⟨"", ","⟩, ⟨"", " \t"⟩,
          ⟨"italic ansigray", "# ("⟩],
        [⟨"", "  "⟩, ⟨"ansicyan", "true"⟩, ⟨"", ")"⟩],
        [⟨"", ""⟩]] := by decide +kernel
  obtain ⟨-, -, hagree⟩ := lines_agree_with_document "do(12, \t# (\n  true)" [1, 0, 1, 7]
  rw [hanswers] at hagree
  refine ⟨hunbroken, hanswers, ?_⟩
  rw [← hagree hunbroken 0 _ (List.mem_cons_of_mem _ List.mem_cons_self)]
  decide

end Highlight

end Egg
