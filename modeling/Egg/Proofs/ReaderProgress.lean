import Egg.Proofs.LayoutRun
import Mathlib.Logic.Relation

namespace Egg

namespace Cursor

namespace Leads

variable {c c' : Cursor}

theorem count_le (h : c.Leads c') (a : Char) : c'.rest.count a ≤ c.rest.count a := by
  obtain ⟨text, hrest, -⟩ := h
  rw [hrest, List.count_append]
  exact Nat.le_add_left _ _

theorem exists_atOffset {source : List Char} {p : Nat} (hp : p ≤ source.length)
    (h : (atOffset source p).Leads c') :
    ∃ q, p ≤ q ∧ q ≤ source.length ∧ c' = atOffset source q := by
  obtain ⟨text, hrest, hposition⟩ := h
  have hsource : source = source.take p ++ text ++ c'.rest := by
    rw [List.append_assoc, ← hrest]
    exact (List.take_append_drop p source).symm
  have hlength : (source.take p ++ text).length = p + text.length := by
    rw [List.length_append, List.length_take_of_le hp]
  refine ⟨(source.take p ++ text).length, by omega, ?_, ?_⟩
  · have hle := congrArg List.length hsource
    rw [List.length_append] at hle
    omega
  · have hcursor := atOffset_append (source.take p ++ text) c'.rest
    rw [← hsource, Position.after_append] at hcursor
    rw [hcursor]
    exact congrArg (Cursor.mk · c'.rest) hposition

theorem exists_atOffset_of_length_lt {source : List Char} {p : Nat} (hp : p ≤ source.length)
    (h : (atOffset source p).Leads c')
    (hlength : c'.rest.length < (atOffset source p).rest.length) :
    ∃ q, c' = atOffset source q ∧ p < q ∧ q ≤ source.length := by
  obtain ⟨q, -, hq, rfl⟩ := h.exists_atOffset hp
  simp only [atOffset, List.length_drop] at hlength
  exact ⟨q, rfl, by omega, hq⟩

end Leads

theorem count_next {c : Cursor} {a : Char} (h : c.rest.head? = some a) :
    c.next.rest.count a < c.rest.count a := by
  obtain ⟨cs, hrest⟩ := List.head?_eq_some_iff.mp h
  simp [next, move, hrest]

theorem skipIndex_of_skip_atOffset {source : List Char} {p : Nat} (hp : p ≤ source.length)
    (h : (atOffset source p).skip = atOffset source p) : skipIndex source p = p := by
  rw [skip_atOffset hp] at h
  rw [← offset_atOffset (skipIndex_bounds hp).2, h, offset_atOffset hp]

end Cursor

namespace Expr

open Relation

/-- One round of the loop over the arguments: one is read, and a comma behind it is passed. -/
def ArgumentRound (item : Reader Expr) (c c' : Cursor) : Prop :=
  c.skip.rest.head? ≠ some ')' ∧ ∃ e c₁, forget (item c) = .ok (e, c₁) ∧
    (c₁.rest.head? = some ',' ∧ c' = c₁.next ∨ c₁.rest.head? = some ')' ∧ c' = c₁)

/-- One round of the loop over the argument lists: one is read with both of its parentheses. -/
def SuffixRound (item : Reader Expr) (c c' : Cursor) : Prop :=
  c.skip.rest.head? = some '(' ∧ ∃ es, forget (readArguments item c.skip.next) = .ok (es, c')

section Rounds

variable {item : Reader Expr} {c c' : Cursor}

theorem ArgumentRound.length_lt (h : ArgumentRound item c c') : c'.rest.length < c.rest.length := by
  obtain ⟨-, e, c₁, hitem, ⟨hcomma, rfl⟩ | ⟨-, rfl⟩⟩ := h
  · exact (Cursor.length_next_lt hcomma).trans (property_of_forget hitem)
  · exact property_of_forget hitem

theorem ArgumentRound.leads (hadvances : Advances item) (h : ArgumentRound item c c') :
    c.Leads c' := by
  obtain ⟨-, e, c₁, hitem, ⟨-, rfl⟩ | ⟨-, rfl⟩⟩ := h
  · exact (hadvances c c₁ e hitem).1.trans (.next c₁)
  · exact (hadvances c _ e hitem).1

theorem SuffixRound.length_lt (h : SuffixRound item c c') : c'.rest.length < c.rest.length := by
  obtain ⟨hopen, es, harguments⟩ := h
  exact (property_of_forget harguments).trans
    ((Cursor.length_next_lt hopen).trans_le c.length_skip_le)

theorem SuffixRound.leads (hadvances : Advances item) (h : SuffixRound item c c') : c.Leads c' := by
  obtain ⟨-, es, harguments⟩ := h
  exact (Cursor.Leads.skip c).trans
    ((Cursor.Leads.next c.skip).trans (readArguments_leads hadvances harguments))

theorem leads_of_rounds {round : Cursor → Cursor → Prop} (hround : ∀ c c', round c c' → c.Leads c')
    (h : ReflTransGen round c c') : c.Leads c' := by
  induction h with
  | refl => exact ⟨[], rfl, rfl⟩
  | tail _ hlast ih => exact ih.trans (hround _ _ hlast)

end Rounds

/-- The calls that reading an expression makes: behind its atom and behind some argument lists a
parenthesis opens, and an argument is to be read there behind some others. -/
def Calls (item : Reader Expr) (c d : Cursor) : Prop :=
  ∃ atom c₁, Atom.read? c.skip.rest = some atom ∧
    ReflTransGen (SuffixRound item) (c.skip.move atom.text) c₁ ∧ c₁.skip.rest.head? = some '(' ∧
    ReflTransGen (ArgumentRound item) c₁.skip.next d ∧ d.skip.rest.head? ≠ some ')'

/-- That calls are nested up to a depth when an expression is read at a cursor. The last of them
may be the one that the limit does not allow any more. -/
inductive Nests : (limit : Nat) → Cursor → (depth : Nat) → Prop where
  | outermost {limit : Nat} {c : Cursor} : Nests limit c 1
  | inside {limit depth : Nat} {c d : Cursor} :
      Calls (readExpression limit) c d → Nests limit d depth → Nests (limit + 1) c (depth + 1)

theorem Calls.count_lt {item : Reader Expr} (hadvances : Advances item) {c d : Cursor}
    (h : Calls item c d) : d.rest.count '(' < c.rest.count '(' := by
  obtain ⟨atom, c₁, hread, hsuffixes, hopen, harguments, -⟩ := h
  have hatom := (Cursor.Leads.skip c).trans (.move (Atom.text_prefix_of_read? hread))
  have hsuffixes' := leads_of_rounds (fun _ _ h => h.leads hadvances) hsuffixes
  have harguments' := leads_of_rounds (fun _ _ h => h.leads hadvances) harguments
  calc d.rest.count '(' ≤ c₁.skip.next.rest.count '(' := harguments'.count_le _
    _ < c₁.skip.rest.count '(' := Cursor.count_next hopen
    _ ≤ c.rest.count '(' := ((hatom.trans hsuffixes').trans (.skip c₁)).count_le _

theorem Nests.depth_le {limit depth : Nat} {c : Cursor} (h : Nests limit c depth) :
    depth ≤ 1 + c.rest.count '(' := by
  induction h with
  | outermost => exact Nat.le_add_right _ _
  | @inside limit depth c d hcalls _ ih =>
      have hlt := hcalls.count_lt (advances_readExpression limit)
      omega

section Faults

variable {item : Reader Expr} {c d : Cursor} {fault : Fault}

theorem ArgumentRound.error (h : ArgumentRound item c d) {stop : Stop}
    (hd : forget (readArguments item d) = .error stop) :
    forget (readArguments item c) = .error stop := by
  obtain ⟨hclose, e, c₁, hitem, ⟨hcomma, rfl⟩ | ⟨hclose', rfl⟩⟩ := h
  · rw [forget_readArguments, if_neg hclose, hitem]
    simp only [if_pos hcomma, hd]
    rfl
  · have hcomma : d.rest.head? ≠ some ',' := by rw [hclose']; decide
    rw [forget_readArguments, if_neg hclose, hitem]
    simp only [if_neg hcomma, if_pos hclose', hd]
    rfl

theorem readArguments_fault_iff :
    forget (readArguments item c) = .error (.fault fault) ↔
      ∃ d, ReflTransGen (ArgumentRound item) c d ∧ d.skip.rest.head? ≠ some ')' ∧
        forget (item d) = .error (.fault fault) := by
  constructor
  · intro h
    induction hn : c.rest.length using Nat.strong_induction_on generalizing c with
    | h n ih =>
        obtain ⟨hclose, hfirst | ⟨e, c₁, hfirst, hmore⟩⟩ := readArguments_error h
        · exact ⟨c, .refl, hclose, hfirst⟩
        · obtain ⟨c₂, hround, hrest⟩ : ∃ c₂, ArgumentRound item c c₂ ∧
              forget (readArguments item c₂) = .error (.fault fault) := by
            rcases hmore with ⟨hcomma, hmore⟩ | ⟨hclose', hmore⟩ | ⟨-, -, hreject⟩
            · exact ⟨c₁.next, ⟨hclose, e, c₁, hfirst, .inl ⟨hcomma, rfl⟩⟩, hmore⟩
            · exact ⟨c₁, ⟨hclose, e, c₁, hfirst, .inr ⟨hclose', rfl⟩⟩, hmore⟩
            · cases hreject
          obtain ⟨d, hrounds, hcall⟩ := ih _ (hn ▸ hround.length_lt) hrest rfl
          exact ⟨d, .head hround hrounds, hcall⟩
  · rintro ⟨d, hrounds, hclose, hitem⟩
    induction hrounds using ReflTransGen.head_induction_on with
    | refl =>
        rw [forget_readArguments, if_neg hclose, hitem]
    | head hround _ ih => exact hround.error ih

theorem readApplications_fault_iff {f : Expr} :
    forget (readApplications item f c) = .error (.fault fault) ↔
      ∃ d, ReflTransGen (SuffixRound item) c d ∧ d.skip.rest.head? = some '(' ∧
        forget (readArguments item d.skip.next) = .error (.fault fault) := by
  constructor
  · intro h
    induction hn : c.rest.length using Nat.strong_induction_on generalizing c f with
    | h n ih =>
        obtain ⟨hopen, harguments | ⟨es, c₁, harguments, hmore⟩⟩ := readApplications_error h
        · exact ⟨c, .refl, hopen, harguments⟩
        · have hround : SuffixRound item c c₁ := ⟨hopen, es, harguments⟩
          obtain ⟨d, hrounds, hcall⟩ := ih _ (hn ▸ hround.length_lt) hmore rfl
          exact ⟨d, .head hround hrounds, hcall⟩
  · rintro ⟨d, hrounds, hopen, harguments⟩
    induction hrounds using ReflTransGen.head_induction_on generalizing f with
    | refl => rw [forget_readApplications, if_pos hopen, harguments]
    | head hround _ ih =>
        obtain ⟨hopen', es, harguments'⟩ := hround
        rw [forget_readApplications, if_pos hopen', harguments']
        exact ih

theorem readExpression_fault_iff {limit : Nat} :
    forget (readExpression (limit + 1) c) = .error (.fault fault) ↔
      ∃ d, Calls (readExpression limit) c d ∧
        forget (readExpression limit d) = .error (.fault fault) := by
  rw [forget_readExpression_succ]
  constructor
  · intro h
    split at h
    · cases h
    · rename_i atom hread
      obtain ⟨c₁, hsuffixes, hopen, h⟩ := readApplications_fault_iff.mp h
      obtain ⟨d, harguments, hclose, h⟩ := readArguments_fault_iff.mp h
      exact ⟨d, ⟨atom, c₁, hread, hsuffixes, hopen, harguments, hclose⟩, h⟩
  · rintro ⟨d, ⟨atom, c₁, hread, hsuffixes, hopen, harguments, hclose⟩, h⟩
    rw [hread]
    exact readApplications_fault_iff.mpr
      ⟨c₁, hsuffixes, hopen, readArguments_fault_iff.mpr ⟨d, harguments, hclose, h⟩⟩

/-- The limit is hit exactly if calls are nested deeper than it allows. -/
theorem readExpression_tooDeep_iff (limit : Nat) (c : Cursor) :
    forget (readExpression limit c) = .error (.fault .tooDeep) ↔ Nests limit c (limit + 1) := by
  induction limit generalizing c with
  | zero => exact iff_of_true rfl .outermost
  | succ limit ih =>
      simp only [readExpression_fault_iff, ih]
      constructor
      · rintro ⟨d, hcalls, hnests⟩
        exact .inside hcalls hnests
      · intro h
        cases h with
        | inside hcalls hnests => exact ⟨_, hcalls, hnests⟩

end Faults

theorem forget_readExpression_skip (limit : Nat) (c : Cursor) :
    forget (readExpression limit c.skip) = forget (readExpression limit c) := by
  cases limit with
  | zero => rfl
  | succ limit => rw [forget_readExpression_succ, forget_readExpression_succ, Cursor.skip_skip]

theorem readExpression_outcome {limit : Nat} {c : Cursor} (hlimit : c.rest.count '(' < limit) :
    (∃ r c', forget (readExpression limit c) = .error (.rejected r) ∧ c.Leads c' ∧
      r.position = c'.position) ∨
    ∃ e c', forget (readExpression limit c) = .ok (e, c') ∧ c.skip.Leads c' ∧
      c'.rest.length < c.skip.rest.length ∧ c'.skip = c' := by
  cases hread : forget (readExpression limit c) with
  | ok result =>
      obtain ⟨e, c'⟩ := result
      -- the layout in front of the expression is not part of it, so reading starts behind it
      rw [← forget_readExpression_skip] at hread
      have hleads := (advances_readExpression limit c.skip c' e hread).1
      have hskip := (sound_readExpression limit c.skip c' e hread).1
      exact .inr ⟨e, c', rfl, hleads, property_of_forget hread, hskip⟩
  | error stop =>
      rcases readExpression_fails limit hread with ⟨r, rfl⟩ | ⟨rfl, -⟩
      · obtain ⟨c', -, -, hleads, -, hposition, -⟩ :=
          strict_readExpression limit 0 c r (.inl rfl) hread
        exact .inl ⟨r, c', rfl, hleads, hposition⟩
      · have hdepth := ((readExpression_tooDeep_iff limit c).mp hread).depth_le
        omega

/-- Reading gets on from every offset of a text. If calls may be nested as deep as the text opens
parentheses, and one deeper, it ends with a rejection in the text from there on, or with an
expression and the cursor behind the layout at the offset, at a place of the text where no layout
follows. Each round of its two loops moves the cursor forward in the text; the limit is hit
exactly if calls are nested deeper, and they never are nested deeper than the text opens
parentheses, and one. -/
theorem reading_gets_on (source : List Char) {p : Nat} (hp : p ≤ source.length) (limit : Nat) :
    (source.count '(' < limit →
      (∃ r, forget (readExpression limit (.atOffset source p)) = .error (.rejected r) ∧
        p ≤ r.position.offset ∧ r.position.offset ≤ source.length) ∨
      ∃ e q, forget (readExpression limit (.atOffset source p)) = .ok (e, .atOffset source q) ∧
        skipIndex source p < q ∧ q ≤ source.length ∧ skipIndex source q = q) ∧
    (∀ c, ArgumentRound (readExpression limit) (.atOffset source p) c ∨
        SuffixRound (readExpression limit) (.atOffset source p) c →
      ∃ q, c = .atOffset source q ∧ p < q ∧ q ≤ source.length) ∧
    (forget (readExpression limit (.atOffset source p)) = .error (.fault .tooDeep) ↔
      Nests limit (.atOffset source p) (limit + 1)) ∧
    ∀ depth, Nests limit (.atOffset source p) depth → depth ≤ 1 + source.count '(' := by
  have hcount : (Cursor.atOffset source p).rest.count '(' ≤ source.count '(' :=
    (List.drop_sublist p source).count_le _
  refine ⟨fun hlimit => ?_, fun c hround => ?_, readExpression_tooDeep_iff limit _, ?_⟩
  · rcases readExpression_outcome (hcount.trans_lt hlimit) with
      ⟨r, c, hread, hleads, hposition⟩ | ⟨e, c, hread, hleads, hlength, hskip⟩
    · obtain ⟨q, hpq, hq, rfl⟩ := hleads.exists_atOffset hp
      have hoffset : r.position.offset = q := by rw [hposition, Cursor.offset_atOffset hq]
      exact .inl ⟨r, hread, hoffset ▸ hpq, hoffset ▸ hq⟩
    · rw [Cursor.skip_atOffset hp] at hleads hlength
      obtain ⟨q, rfl, hlt, hq⟩ :=
        hleads.exists_atOffset_of_length_lt (skipIndex_bounds hp).2 hlength
      exact .inr ⟨e, q, hread, hlt, hq, Cursor.skipIndex_of_skip_atOffset hq hskip⟩
  · have hadvances := advances_readExpression limit
    rcases hround with hround | hround
    · exact (hround.leads hadvances).exists_atOffset_of_length_lt hp hround.length_lt
    · exact (hround.leads hadvances).exists_atOffset_of_length_lt hp hround.length_lt
  · intro depth hnests
    exact hnests.depth_le.trans (Nat.add_le_add_left hcount 1)

/-- Behind the blank there is a call with one argument. It is read when calls may be nested three
deep; one call is not enough, since the argument is a second one. -/
theorem reading_gets_on_call :
    1 ≤ " f (a,)#".toList.length ∧ " f (a,)#".toList.count '(' < 3 ∧
    ((∃ r, forget (readExpression 3 (.atOffset " f (a,)#".toList 1)) = .error (.rejected r) ∧
        1 ≤ r.position.offset ∧ r.position.offset ≤ " f (a,)#".toList.length) ∨
      ∃ e q, forget (readExpression 3 (.atOffset " f (a,)#".toList 1)) =
          .ok (e, .atOffset " f (a,)#".toList q) ∧
        skipIndex " f (a,)#".toList 1 < q ∧ q ≤ " f (a,)#".toList.length ∧
        skipIndex " f (a,)#".toList q = q) ∧
    Nests 1 (.atOffset " f (a,)#".toList 1) 2 ∧
    forget (readExpression 1 (.atOffset " f (a,)#".toList 1)) = .error (.fault .tooDeep) ∧
    2 ≤ 1 + " f (a,)#".toList.count '(' := by
  have hlength : 1 ≤ " f (a,)#".toList.length := by decide
  have hcount : " f (a,)#".toList.count '(' < 3 := by decide
  have hcalls : Calls (readExpression 0) (.atOffset " f (a,)#".toList 1)
      (.atOffset " f (a,)#".toList 4) :=
    ⟨.word ['f'], .atOffset " f (a,)#".toList 2, by decide +kernel, .refl, by decide +kernel, .refl,
      by decide +kernel⟩
  have hnests : Nests 1 (.atOffset " f (a,)#".toList 1) 2 := .inside hcalls .outermost
  obtain ⟨-, -, hdeep, hbound⟩ := reading_gets_on _ hlength 1
  exact ⟨hlength, hcount, (reading_gets_on _ hlength 3).1 hcount, hnests, hdeep.mpr hnests,
    hbound 2 hnests⟩

end Expr

end Egg
