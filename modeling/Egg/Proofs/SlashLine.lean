import Egg.Proofs.IdleEvent
import Egg.Proofs.ProgramNode

namespace Egg

theorem Derives.leaf_eq {f e : Expr} {ts : List Token} (h : Derives (.suffixes f e) ts) :
    e.leaf = f.leaf := by
  generalize hphrase : Phrase.suffixes f e = phrase at h
  induction h generalizing f with
  | noSuffix =>
      cases hphrase
      rfl
  | suffix _ _ _ _ _ ih =>
      cases hphrase
      have hleaf := ih rfl
      exact hleaf
  | expression | noArgument | argument | lastArgument | trailingComma | furtherArgument =>
      cases hphrase

namespace Expr

theorem leaf_toExpr (atom : Atom) (p : Position) : (atom.toExpr p).leaf = atom.toExpr p := by
  cases atom <;> rfl

theorem leaf_of_parse {limit : Nat} {source : String} {e : Expr} (h : parse limit source = .ok e) :
    ∃ atom, Atom.read? (Cursor.ofText source.toList).skip.rest = some atom ∧
      e.leaf = atom.toExpr (Cursor.ofText source.toList).skip.position := by
  have htokens : (Cursor.ofText source.toList).skip.tokens = Token.scan source :=
    (Cursor.tokens_skip _).trans (Cursor.tokens_ofText source)
  have hderives := derives_of_parse h
  rw [← htokens] at hderives
  generalize hts : (Cursor.ofText source.toList).skip.tokens = ts at hderives
  cases hderives with
  | expression hleaf hsuffixes =>
      obtain ⟨atom, hread, rfl, -⟩ := Cursor.read?_of_tokens (Cursor.skip_skip _) hts hleaf
      exact ⟨atom, hread, by rw [hsuffixes.leaf_eq, leaf_toExpr]⟩

/-- That a program begins with a word with a slash in front, and has only blanks before it. -/
def LedBySlash (e : Expr) (source : String) : Prop :=
  ∃ x o p, e.leaf = .name x o (some p) ∧ x.toList.head? = some '/' ∧
    ∀ c ∈ source.toList.take p.offset, Text.isBlank c = true

end Expr

theorem Atom.read?_slash {cs : List Char} {atom : Atom} (h : read? ('/' :: cs) = some atom) :
    ∃ name, atom = .word ('/' :: name) := by
  have hdigit : Char.isDigit '/' = false := rfl
  have hname : isNameChar '/' = true := rfl
  rw [read?] at h
  simp [string?, number?, word?, hdigit, hname] at h
  exact ⟨_, h.symm⟩

theorem layout_of_trimLeft {cs ds : List Char} (h : Text.trimLeft cs = '/' :: ds) :
    layout false cs = cs.takeWhile Text.isBlank := by
  have hlayout : layout false (cs.takeWhile Text.isBlank ++ Text.trimLeft cs) =
      cs.takeWhile Text.isBlank ++ layout false (Text.trimLeft cs) :=
    layout_blanks (fun b hb => List.mem_takeWhile_imp hb) _
  rw [Text.trimLeft, List.takeWhile_append_dropWhile, ← Text.trimLeft, h] at hlayout
  rw [hlayout, layout_cons_eq_nil_iff.mpr rfl, List.append_nil]

theorem Expr.ledBySlash_iff {limit : Nat} {source : String} {e : Expr}
    (hparse : parse limit source = .ok e) :
    e.LedBySlash source ↔ (Text.trimLeft source.toList).head? = some '/' := by
  obtain ⟨atom, hread, hleaf⟩ := leaf_of_parse hparse
  have hoffset : (Cursor.ofText source.toList).skip.position.offset =
      (layout false source.toList).length := by
    simp [Cursor.skip, Cursor.move, Cursor.ofText, Position.start]
  have hrest : (Cursor.ofText source.toList).skip.rest =
      source.toList.drop (layout false source.toList).length := rfl
  constructor
  · rintro ⟨x, o, p, hname, hslash, hblank⟩
    rw [hleaf] at hname
    cases atom with
    | string | number => cases hname
    | word name =>
        cases hname
        -- the layout is all blank, so what follows it is what follows the blanks
        obtain ⟨more, hmore⟩ := Atom.text_prefix_of_read? hread
        rw [hrest] at hmore
        rw [hoffset, ← List.prefix_iff_eq_take.mp (layout_prefix_self false _)] at hblank
        rw [String.toList_ofList] at hslash
        obtain ⟨name, rfl⟩ := List.head?_eq_some_iff.mp hslash
        rw [Text.trimLeft, ← List.prefix_iff_eq_append.mp (layout_prefix_self false source.toList),
          List.dropWhile_append_of_pos hblank, ← hmore]
        rfl
  · intro hslash
    obtain ⟨ds, hds⟩ := List.head?_eq_some_iff.mp hslash
    have hlayout := layout_of_trimLeft hds
    have hblanks := List.takeWhile_prefix (l := source.toList) Text.isBlank
    have hdrop : source.toList.drop (source.toList.takeWhile Text.isBlank).length = '/' :: ds := by
      refine List.append_cancel_left ((List.prefix_iff_eq_append.mp hblanks).trans ?_)
      rw [← hds, Text.trimLeft, List.takeWhile_append_dropWhile]
    rw [hrest, hlayout, hdrop] at hread
    obtain ⟨name, rfl⟩ := Atom.read?_slash hread
    refine ⟨_, _, _, hleaf, by simp, fun c hc => ?_⟩
    rw [hoffset, hlayout, ← List.prefix_iff_eq_take.mp hblanks] at hc
    exact List.mem_takeWhile_imp hc

theorem Expr.not_blank_of_parse {limit : Nat} {source : String} {e : Expr}
    (hparse : parse limit source = .ok e) : ¬ source.toList.all Text.isBlank = true := by
  intro hblank
  obtain ⟨atom, hread, -⟩ := leaf_of_parse hparse
  have hlayout := layout_blanks (List.all_eq_true.mp hblank) []
  rw [List.append_nil] at hlayout
  refine Atom.ne_nil_of_read? hread ?_
  simp [Cursor.skip, Cursor.move, Cursor.ofText, hlayout]

namespace Command

theorem ofLine?_eq_none_iff {line : String} :
    ofLine? line = none ↔ (Text.trimLeft line.toList).head? ≠ some '/' := by
  have hslash : Text.isBlank '/' = false := rfl
  have hhead : (Text.splitWord line.toList).1.head? = some '/' ↔
      (Text.trimLeft line.toList).head? = some '/' := by
    rw [Text.splitWord, List.head?_takeWhile, Option.filter_eq_some_iff]
    simp [hslash]
  rw [Ne, ← hhead]
  simp only [ofLine?]
  by_cases h : (Text.splitWord line.toList).1.head? = some '/'
  · simp [h]
  · simp [h]

theorem eq_unknown_of_ofLine? {line : String} {command : Command} (h : ofLine? line = some command)
    (hword : String.ofList (Text.splitWord line.toList).1 ∉ entries.map (·.word)) :
    command = .unknown (String.ofList (Text.splitWord line.toList).1) := by
  simp only [entries, List.map_cons, List.map_nil, List.mem_cons, not_or] at hword
  obtain ⟨hclear, htraceback, hreset, -⟩ := hword
  simp only [ofLine?] at h
  split at h
  · cases h
    rfl
  · cases h

/-- Which programs can be entered on a line. Take a program whose first piece is no known command.
It is taken for no command unless it begins with a word with a slash in front, behind nothing but
blanks. If it is, it is reported as a command that is not known, and the session stays as it is;
if it is not, every session runs it. -/
theorem program_taken_iff {limit : Nat} {source : String} {e : Expr}
    (hparse : Expr.parse limit source = .ok e)
    (hword : String.ofList (Text.splitWord source.toList).1 ∉ entries.map (·.word)) :
    (ofLine? source = none ↔ ¬ e.LedBySlash source) ∧
    (∀ command, ofLine? source = some command → ∀ s : Session,
      s.obey command = (s, .warn ("Unknown command: " ++
        String.ofList (Text.splitWord source.toList).1 ++ "\n"))) ∧
    ∀ limits text (s : Session), Session.normalize text = source → ofLine? source = none →
      s.submit limits text = s.runProgram limits source := by
  refine ⟨?_, fun command hcommand s => ?_, fun limits text s htext hnone => ?_⟩
  · rw [ofLine?_eq_none_iff, Expr.ledBySlash_iff hparse]
  · rw [eq_unknown_of_ofLine? hcommand hword]
    rfl
  · subst htext
    exact Session.submit_of_program (Expr.not_blank_of_parse hparse) hnone

theorem program_taken_iff_comment :
    ∃ e, Expr.parse 9 "#\n/(6, 2)" = .ok e ∧
      String.ofList (Text.splitWord "#\n/(6, 2)".toList).1 ∉ entries.map (·.word) ∧
      ¬ e.LedBySlash "#\n/(6, 2)" ∧
      (Session.start false).submit ⟨9, 9, 9⟩ "#\n/(6, 2)" =
        (Session.start false).runProgram ⟨9, 9, 9⟩ "#\n/(6, 2)" := by
  have hparse : (Expr.parse 9 "#\n/(6, 2)").toBool = true := by decide +kernel
  have hword : String.ofList (Text.splitWord "#\n/(6, 2)".toList).1 ∉ entries.map (·.word) := by
    decide +kernel
  have hnone : ofLine? "#\n/(6, 2)" = none := by decide +kernel
  cases he : Expr.parse 9 "#\n/(6, 2)" with
  | error stop =>
      rw [he] at hparse
      cases hparse
  | ok e =>
      obtain ⟨hled, -, hrun⟩ := program_taken_iff he hword
      exact ⟨e, rfl, hword, hled.mp hnone, hrun _ _ _ (by decide +kernel) hnone⟩

/-- A division on a line of its own is a program, and is taken for a command. -/
theorem division_taken_for_command :
    (Expr.parse 9 "/(6, 2)").toBool = true ∧
    String.ofList (Text.splitWord "/(6, 2)".toList).1 ∉ entries.map (·.word) ∧
    ofLine? "/(6, 2)" = some (.unknown "/(6,") := by
  decide +kernel

end Command

end Egg
