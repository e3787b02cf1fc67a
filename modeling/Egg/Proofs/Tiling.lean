import Egg.Proofs.TokenStream
import Mathlib.Data.List.Induction

namespace Egg

section LineColumn

/-- The characters behind the last line feed of a text, last one first. -/
def Text.lastLine (cs : List Char) : List Char :=
  cs.reverse.takeWhile (· ≠ '\n')

theorem Text.lastLine_concat (cs : List Char) (c : Char) :
    Text.lastLine (cs ++ [c]) = if c = '\n' then [] else c :: Text.lastLine cs := by
  by_cases hc : c = '\n'
  · simp [Text.lastLine, hc]
  · simp [Text.lastLine, hc]

theorem Text.lastLine_of_notMem {cs : List Char} (h : '\n' ∉ cs) :
    (Text.lastLine cs).length = cs.length := by
  have hall : ∀ c ∈ cs.reverse, decide (c ≠ '\n') = true := by
    intro c hc
    have hne : c ≠ '\n' := by
      rintro rfl
      exact h (List.mem_reverse.mp hc)
    simpa using hne
  rw [Text.lastLine, List.takeWhile_eq_self_iff.mpr hall, List.length_reverse]

/-- Moving over a text adds its line feeds to the line. The column starts afresh behind the last
line feed, and moves on by the whole text if there is none. -/
theorem Position.after_eq (p : Position) (cs : List Char) :
    p.after cs = ⟨p.line + cs.count '\n',
      if '\n' ∈ cs then (Text.lastLine cs).length + 1 else p.column + cs.length,
      p.offset + cs.length⟩ := by
  induction cs using List.reverseRecOn with
  | nil => simp
  | append_singleton cs c ih =>
      rw [Position.after_append, ih, Position.after_cons, Position.after_nil, Text.lastLine_concat]
      by_cases hc : c = '\n'
      · subst hc
        simp [Position.advance, Nat.add_assoc]
      · have hcount : (cs ++ [c]).count '\n' = cs.count '\n' := by
          simp [hc]
        have hmem : '\n' ∈ cs ++ [c] ↔ '\n' ∈ cs := by
          simp [Ne.symm hc]
        simp only [Position.advance, if_neg hc, hcount, hmem, List.length_append, List.length_cons,
          List.length_nil]
        split <;> simp [Nat.add_assoc]

theorem lineCol_offset_after (before rest : List Char) :
    lineCol (before ++ rest) (Position.start.after before).offset =
      ((Position.start.after before).line, (Position.start.after before).column) := by
  have hoffset : (Position.start.after before).offset = before.length := by
    simp [Position.start]
  rw [hoffset, Position.after_eq]
  by_cases hmem : '\n' ∈ before
  · simp [lineCol, Position.start, Text.lastLine, hmem, Nat.add_comm]
  · have hlength := Text.lastLine_of_notMem hmem
    rw [Text.lastLine] at hlength
    simp only [lineCol, Position.start, List.take_left, Nat.sub_self, hlength, if_neg hmem,
      Nat.add_comm]

end LineColumn

namespace Token

theorem lexeme_prefix (a : Char) (cs : List Char) : (lexeme a cs).2 <+: a :: cs := by
  unfold lexeme
  split_ifs
  · exact List.cons_prefix_cons.mpr ⟨rfl, List.takeWhile_prefix _⟩
  · exact List.cons_prefix_cons.mpr ⟨rfl, List.takeWhile_prefix _⟩
  · simp
  · simp
  · simp
  · split
    · rename_i atom hread
      exact Atom.text_prefix_of_read? hread
    · exact List.prefix_refl _

theorem lexeme_unclosed {a : Char} {cs : List Char} (h : (lexeme a cs).1 = .unclosed) :
    (lexeme a cs).2 = a :: cs ∧ a = '"' ∧ '"' ∉ cs := by
  have hlayout : (lexeme a cs).1.isLayout = false := by rw [h]; rfl
  have hmark : Kind.ofMark? a = none := by
    cases hmark : Kind.ofMark? a with
    | none => rfl
    | some kind =>
        rw [lexeme_of_mark hmark] at h
        rcases Kind.ofMark?_cases hmark with ⟨-, rfl⟩ | ⟨-, rfl⟩ | ⟨-, rfl⟩ <;> cases h
  have hlexeme := lexeme_of_not_mark hlayout hmark
  cases hread : Atom.read? (a :: cs) with
  | some atom =>
      rw [hlexeme, hread] at h
      cases atom <;> cases h
  | none =>
      obtain ⟨hopen, hclose, hcomma⟩ := Kind.ofMark?_eq_none_iff.mp hmark
      have hquote : a = '"' := by
        simpa [isNameChar, (lexeme_not_layout hlayout).1, hopen, hclose, hcomma] using
          Atom.isNameChar_of_read?_eq_none hread
      refine ⟨by rw [hlexeme, hread], hquote, fun hmem => ?_⟩
      simp [hquote, Atom.read?, Atom.string?, hmem] at hread

/-- The token at the front of a text that starts at a place. -/
def first (p : Position) (a : Char) (cs : List Char) : Token :=
  ⟨(lexeme a cs).1, String.ofList (lexeme a cs).2, p⟩

theorem scanFrom_cons (p : Position) (a : Char) (cs : List Char) :
    ∃ rest, a :: cs = (first p a cs).text.toList ++ rest ∧ (first p a cs).text.toList ≠ [] ∧
      scanFrom true p (a :: cs) =
        first p a cs :: scanFrom true (p.after (first p a cs).text.toList) rest := by
  obtain ⟨rest, hrest⟩ := lexeme_prefix a cs
  refine ⟨rest, by simp [first, hrest], by simpa [first] using lexeme_ne_nil a cs, ?_⟩
  rw [Cursor.scanFrom_true_eq_cons (c := ⟨p, a :: cs⟩) rfl]
  simp [first, Cursor.move, ← hrest]

theorem scanFrom_split {p : Position} {cs : List Char} {front back : List Token} {t : Token}
    (h : scanFrom true p cs = front ++ t :: back) :
    ∃ before a rest, cs = before ++ a :: rest ∧ t = first (p.after before) a rest ∧
      ∃ behind, a :: rest = t.text.toList ++ behind ∧
        back = scanFrom true (t.start.after t.text.toList) behind := by
  induction front generalizing p cs with
  | nil =>
      rcases cs with _ | ⟨a, cs⟩
      · simp [scanFrom] at h
      · obtain ⟨rest, hrest, -, hscan⟩ := scanFrom_cons p a cs
        rw [hscan] at h
        obtain ⟨rfl, rfl⟩ := List.cons.inj h
        exact ⟨[], a, cs, rfl, rfl, rest, hrest, rfl⟩
  | cons u front ih =>
      rcases cs with _ | ⟨a, cs⟩
      · simp [scanFrom] at h
      · obtain ⟨rest, hrest, -, hscan⟩ := scanFrom_cons p a cs
        rw [hscan] at h
        obtain ⟨before, b, after, rfl, ht, hback⟩ := ih (List.cons.inj h).2
        refine ⟨(first p a cs).text.toList ++ before, b, after, ?_, ?_, hback⟩
        · rw [hrest, List.append_assoc]
        · rw [ht, Position.after_append]

/-- Tokens that stand side by side from one offset to another. -/
def Tiles : (start : Nat) → List Token → (stop : Nat) → Prop
  | start, [], stop => start = stop
  | start, t :: ts, stop => t.start.offset = start ∧ t.text ≠ "" ∧ Tiles t.stop ts stop

theorem tiles_scanFrom (p : Position) (cs : List Char) :
    Tiles p.offset (scanFrom true p cs) (p.offset + cs.length) := by
  induction hn : cs.length using Nat.strong_induction_on generalizing p cs with
  | h n ih =>
      subst hn
      rcases cs with _ | ⟨a, cs⟩
      · simp [scanFrom, Tiles]
      · obtain ⟨rest, hrest, hne, hscan⟩ := scanFrom_cons p a cs
        have hlength : (a :: cs).length = (first p a cs).text.length + rest.length := by
          rw [hrest, List.length_append, String.length_toList]
        have hpos : 0 < (first p a cs).text.length := by
          rw [← String.length_toList]
          exact List.length_pos_iff.mpr hne
        have hrec := ih rest.length (by omega) (p.after (first p a cs).text.toList) rest rfl
        rw [Position.offset_after, String.length_toList, Nat.add_assoc, ← hlength] at hrec
        rw [hscan]
        refine ⟨rfl, ?_, hrec⟩
        intro hempty
        simp [hempty] at hpos

theorem start_lt_stop {t : Token} (h : t.text ≠ "") : t.start.offset < t.stop := by
  have hpos : 0 < t.text.length :=
    Nat.pos_of_ne_zero fun hzero => h (String.length_eq_zero_iff.mp hzero)
  rw [stop]
  omega

theorem Tiles.offset_bounds {start stop : Nat} {ts : List Token} (h : Tiles start ts stop) :
    start ≤ stop ∧ ∀ t ∈ ts, start ≤ t.start.offset ∧ t.start.offset < stop := by
  induction ts generalizing start with
  | nil => exact ⟨Nat.le_of_eq h, by simp⟩
  | cons t ts ih =>
      obtain ⟨rfl, htext, htiles⟩ := h
      obtain ⟨hle, hbounds⟩ := ih htiles
      have hlt := start_lt_stop htext
      refine ⟨by omega, List.forall_mem_cons.mpr ⟨⟨Nat.le_refl _, by omega⟩, ?_⟩⟩
      intro u hu
      obtain ⟨hstart, hstop⟩ := hbounds u hu
      exact ⟨by omega, hstop⟩

theorem Tiles.pairwise {start stop : Nat} {ts : List Token} (h : Tiles start ts stop) :
    ts.Pairwise fun t u => t.start.offset < u.start.offset := by
  induction ts generalizing start with
  | nil => exact .nil
  | cons t ts ih =>
      obtain ⟨-, htext, htiles⟩ := h
      refine .cons (fun u hu => ?_) (ih htiles)
      exact (start_lt_stop htext).trans_le (htiles.offset_bounds.2 u hu).1

theorem lineCol_start {source : String} {t : Token} (ht : t ∈ scanAll source) :
    lineCol source.toList t.start.offset = (t.start.line, t.start.column) := by
  obtain ⟨front, back, hsplit⟩ := List.append_of_mem ht
  obtain ⟨before, a, rest, hsource, ht, -⟩ := scanFrom_split hsplit
  have hstart : t.start = Position.start.after before := by rw [ht, first]
  rw [hsource, hstart, lineCol_offset_after]

theorem scan_eq_filter (source : String) :
    scan source = (scanAll source).filter (!·.kind.isLayout) :=
  (Cursor.ofText source.toList).tokens_eq_filter

theorem mem_scan_iff {source : String} {t : Token} :
    t ∈ scan source ↔ t ∈ scanAll source ∧ t.kind.isLayout = false := by
  rw [scan_eq_filter, List.mem_filter, Bool.not_eq_true']

/-- Scanning loses nothing and keeps its place. The tokens of a text, none of them empty, stand
side by side from its start to its end; each holds the characters between its two offsets, and its
line and column are those of its offset. Only the last token can be a string that is never closed,
which has a quote in front and no other. Scanning that emits no layout finds the other tokens all
the same, at the same places. -/
theorem scanAll_tiles (source : String) :
    Tiles 0 (scanAll source) source.length ∧
    (∀ t ∈ scanAll source,
      t.text.toList = (source.toList.take t.stop).drop t.start.offset ∧
      (t.start.line, t.start.column) = lineCol source.toList t.start.offset) ∧
    (∀ front t back, scanAll source = front ++ t :: back → t.kind = .unclosed →
      back = [] ∧ ∃ body, t.text.toList = '"' :: body ∧ '"' ∉ body) ∧
    scan source = (scanAll source).filter fun t => t.kind ≠ .blank ∧ t.kind ≠ .comment := by
  refine ⟨?_, fun t ht => ?_, fun front t back hsplit hkind => ?_, ?_⟩
  · have htiles := tiles_scanFrom .start source.toList
    rwa [String.length_toList, Position.start, Nat.zero_add] at htiles
  · refine ⟨?_, (lineCol_start ht).symm⟩
    obtain ⟨front, back, hsplit⟩ := List.append_of_mem ht
    obtain ⟨before, a, rest, hsource, ht, behind, htext, -⟩ := scanFrom_split hsplit
    have hoffset : t.start.offset = before.length := by
      simp [ht, first, Position.start]
    rw [htext] at hsource
    rw [hsource, ← List.append_assoc, List.take_left', hoffset, List.drop_left]
    rw [stop, hoffset, List.length_append, String.length_toList]
  · obtain ⟨before, a, rest, -, ht, behind, htext, hback⟩ := scanFrom_split hsplit
    have hunclosed : (lexeme a rest).1 = .unclosed := by rw [← hkind, ht, first]
    obtain ⟨hall, rfl, hquote⟩ := lexeme_unclosed hunclosed
    have hwhole : t.text.toList = '"' :: rest := by simp [ht, first, hall]
    have hend : behind = [] := by simpa [hwhole] using htext
    refine ⟨?_, rest, hwhole, hquote⟩
    rw [hback, hend, scanFrom]
  · rw [scan_eq_filter]
    refine List.filter_congr fun t _ => ?_
    cases t.kind <;> simp [Kind.isLayout]

end Token

end Egg
