import Egg.Proofs.ScanMode
import Egg.Session.Basic
import Mathlib.Data.List.Infix

namespace Egg

namespace Session

/-- A character that is taken out of every input. -/
def isHidden (c : Char) : Bool :=
  invisible.contains c.toNat

theorem toList_normalize (text : String) :
    (normalize text).toList = text.toList.filter (!isHidden ·) :=
  String.toList_ofList

/-- That a comment sign comes first in a text, but for digits and hidden characters. -/
def commentAhead (cs : List Char) : Bool :=
  (cs.dropWhile fun c => c.isDigit || isHidden c).head? = some '#'

/-- That a text starts with a hidden character, and a comment sign comes first behind it. -/
def hidesComment : List Char → Bool
  | [] => false
  | c :: cs => isHidden c && commentAhead cs

theorem commentAhead_digit {c : Char} (h : c.isDigit = true) (cs : List Char) :
    commentAhead (c :: cs) = commentAhead cs := by
  simp [commentAhead, h]

theorem ne_comment_of_commentAhead {c : Char} {cs : List Char}
    (h : commentAhead (c :: cs) = false) :
    c ≠ '#' := by
  rintro rfl
  cases h

end Session

namespace Token.Mode

open Session

/-- Outside of comments and strings. -/
def isBare : Mode → Bool
  | gap | word => true
  | comment | string => false

theorem eq_gap_or_word {mode : Mode} (h : mode.isBare = true) : mode = gap ∨ mode = word := by
  cases mode with
  | gap => exact .inl rfl
  | word => exact .inr rfl
  | comment | string => cases h

/-- A hidden character leaves a comment or a string as it is, and can only make a gap out of a
word or a word out of a gap. -/
theorem next_of_isHidden {c : Char} (h : isHidden c = true) (mode : Mode) :
    mode.weight c = 0 ∧
      (mode.next c = mode ∨ mode.isBare = true ∧ (mode.next c).isBare = true) := by
  have hmem : c ∈ invisible.map Char.ofNat := by
    rw [← Char.ofNat_toNat c]
    exact List.mem_map_of_mem (List.contains_iff_mem.mp h)
  simp only [invisible, List.map_cons, List.map_nil, List.mem_cons, List.not_mem_nil,
    or_false] at hmem
  rcases hmem with rfl | rfl | rfl | rfl | rfl | rfl <;> cases mode <;> decide

theorem next_of_isBare {raw shown : Mode} (hraw : raw.isBare = true) (hshown : shown.isBare = true)
    {c : Char} (hc : c ≠ '#') :
    shown.next c = raw.next c ∨
      c.isDigit = true ∧ (raw.next c).isBare = true ∧ (shown.next c).isBare = true := by
  have hcases : gap.next c = word.next c ∨
      c.isDigit = true ∧ (gap.next c).isBare = true ∧ (word.next c).isBare = true := by
    by_cases hquote : c = '"'
    · simp [next, hquote]
    · cases hname : isNameChar c with
      | false => simp [next, hquote, hname]
      | true =>
          cases hdigit : c.isDigit with
          | false => simp [next, hquote, hname, hdigit, hc]
          | true => simp [next, hquote, hname, hdigit, isBare]
  rcases eq_gap_or_word hraw with rfl | rfl
  · rcases eq_gap_or_word hshown with rfl | rfl
    · exact .inl rfl
    · exact hcases.imp_left Eq.symm
  · rcases eq_gap_or_word hshown with rfl | rfl
    · exact hcases.imp_right fun h => ⟨h.1, h.2.2, h.2.1⟩
    · exact .inl rfl

theorem weight_of_isBare {mode : Mode} (h : mode.isBare = true) (c : Char) :
    mode.weight c = gap.weight c := by
  rcases eq_gap_or_word h with rfl | rfl <;> rfl

/-- Taking hidden characters out of a text does not change what it leaves open, unless one of them
stands before a comment sign. The mode can come to differ, but only between a gap and a word, and
only as long as no comment sign comes first. -/
theorem leaves_filter {raw shown : Mode} {cs : List Char}
    (hcs : ∀ ds, ds <:+ cs → hidesComment ds = false)
    (hmodes : shown = raw ∨ raw.isBare = true ∧ shown.isBare = true ∧ commentAhead cs = false) :
    shown.leaves (cs.filter (!isHidden ·)) = raw.leaves cs := by
  induction cs generalizing raw shown with
  | nil =>
      rcases hmodes with rfl | ⟨hraw, hshown, -⟩
      · rfl
      · rcases eq_gap_or_word hraw with rfl | rfl <;>
          rcases eq_gap_or_word hshown with rfl | rfl <;> rfl
  | cons c cs ih =>
      have hrest : ∀ ds, ds <:+ cs → hidesComment ds = false :=
        fun ds hds => hcs ds (hds.trans (List.suffix_cons c cs))
      cases hhidden : isHidden c with
      | true =>
          have hahead : commentAhead cs = false := by
            simpa [hidesComment, hhidden] using hcs (c :: cs) List.suffix_rfl
          obtain ⟨hweight, hnext⟩ := next_of_isHidden hhidden raw
          rw [List.filter_cons_of_neg (by simp [hhidden]), leaves_cons_of_weight hweight]
          refine ih hrest ?_
          rcases hmodes with rfl | ⟨hraw, hshown, -⟩
          · rcases hnext with hnext | ⟨hbare, hnext⟩
            · exact .inl hnext.symm
            · exact .inr ⟨hnext, hbare, hahead⟩
          · refine .inr ⟨?_, hshown, hahead⟩
            rcases hnext with hnext | ⟨-, hnext⟩
            · rw [hnext, hraw]
            · exact hnext
      | false =>
          rw [List.filter_cons_of_pos (by simp [hhidden])]
          rcases hmodes with rfl | ⟨hraw, hshown, hahead⟩
          · rw [leaves, leaves, ih hrest (.inl rfl)]
          · have hnext : (shown.next c).leaves (cs.filter (!isHidden ·)) =
                (raw.next c).leaves cs := by
              refine ih hrest ?_
              refine (next_of_isBare hraw hshown (ne_comment_of_commentAhead hahead)).imp_right ?_
              rintro ⟨hdigit, hraw', hshown'⟩
              exact ⟨hraw', hshown', commentAhead_digit hdigit cs ▸ hahead⟩
            rw [leaves, leaves, hnext, weight_of_isBare hraw, weight_of_isBare hshown]

end Token.Mode

namespace Session

/-- The Enter key and the session judge the same text alike, unless a comment sign stands behind a
hidden character with nothing but digits and hidden characters between the two: a text needs more
input exactly if it does without its hidden characters. So what the Enter key submits as a program
that needs no more input is run as one that needs none. -/
theorem needsMore_normalize {text : String}
    (h : ∀ cs, cs <:+ text.toList → hidesComment cs = false) :
    Token.needsMore (normalize text) = Token.needsMore text ∧
    (onEnter text = .submit → (Text.trimLeft text.toList).head? = some '/' ∨
      Token.needsMore (normalize text) = false) := by
  have hsame : Token.needsMore (normalize text) = Token.needsMore text := by
    rw [Token.needsMore_eq, Token.needsMore_eq, toList_normalize,
      Token.Mode.leaves_filter h (.inl rfl)]
  refine ⟨hsame, fun hsubmit => ?_⟩
  rw [onEnter] at hsubmit
  split at hsubmit
  · rename_i hjudged
    rw [hsame]
    simpa using hjudged
  · cases hsubmit

/-- A text with hidden characters between words, inside a word, in a string, at the end of a line
and in a comment. -/
def scattered : String := "f\u00a0(\u200bx2, \"\ufeff(\")\r\n# (\u200c("

theorem needsMore_normalize_scattered :
    (∀ cs, cs <:+ scattered.toList → hidesComment cs = false) ∧ onEnter scattered = .submit ∧
      Token.needsMore (normalize scattered) = false := by
  have hall : ∀ cs ∈ scattered.toList.tails, hidesComment cs = false := by decide +kernel
  have hsubmit : onEnter scattered = .submit := by decide +kernel
  have h : ∀ cs, cs <:+ scattered.toList → hidesComment cs = false :=
    fun cs hcs => hall cs ((List.mem_tails _ _).mpr hcs)
  refine ⟨h, hsubmit, ((needsMore_normalize h).2 hsubmit).resolve_left ?_⟩
  decide +kernel

/-- A hidden blank between a word and a comment: the Enter key submits the text, but without the
blank there is no comment, and the text that is run has an open parenthesis. -/
theorem enter_misjudges_hidden_blank :
    onEnter "x\u00a0#(" = .submit ∧ Token.needsMore "x\u00a0#(" = false ∧
      normalize "x\u00a0#(" = "x#(" ∧ Token.needsMore (normalize "x\u00a0#(") = true ∧
      onEnter (normalize "x\u00a0#(") = .newLine := by
  decide +kernel

end Session

end Egg
