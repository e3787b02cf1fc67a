import Egg.Proofs.FreshRun

namespace Egg

namespace Cause

/-- The word at which an error about a name points: the name itself where it is looked up, and the
word of the special form where it is assigned to. -/
def culprit? : Cause → Option String
  | undefined name => some name
  | unassignable _ => some Form.assign.word
  | _ => none

theorem culprit?_eq_none {cause : Cause} (h : cause.kind ≠ .reference) : cause.culprit? = none := by
  cases cause with
  | undefined | unassignable => exact absurd rfl h
  | _ => rfl

section Message

/-- How the report on a cause starts, as far as it takes to tell errors about names from all
others. -/
def opening : Cause → List Char
  | argumentCount .. | notWord _ => ['b']
  | noBody => ['f']
  | undefined _ => ['u']
  | unassignable _ => ['a', 's']
  | notCallable => ['a', 'p']
  | wrongArity .. => ['w']
  | notNumbers .. | notOrdered .. => ['\'']
  | notArray operation _ => operation.word.toList
  | notIndex _ | outOfRange .. => ['e']
  | tooDeep => ['m']

theorem prefix_append {cs : List Char} {a : String} (h : cs <+: a.toList) (b : String) :
    cs <+: (a ++ b).toList := by
  rw [String.toList_append]
  exact h.trans (List.prefix_append _ _)

theorem opening_prefix_message (cause : Cause) : cause.opening <+: cause.message.toList := by
  cases cause with
  | noBody => exact (by decide : ['f'] <+: "functions need a body".toList)
  | notCallable => exact (by decide : ['a', 'p'] <+: "applying a non-function".toList)
  | tooDeep => exact (by decide : ['m'] <+: "maximum recursion depth exceeded".toList)
  | undefined =>
      have h : ['u'] <+: "undefined variable: ".toList := by decide
      exact prefix_append h _
  | unassignable =>
      have h : ['a', 's'] <+: "assigning undefined variable: ".toList := by decide
      exact prefix_append h _
  | notIndex =>
      have h : ['e'] <+: "element expects an integer index; got ".toList := by decide
      exact prefix_append h _
  | notArray => exact prefix_append (prefix_append List.prefix_rfl _) _
  | outOfRange =>
      have h : ['e'] <+: "element index ".toList := by decide
      exact prefix_append (prefix_append (prefix_append h _) _) _
  | notWord =>
      have h : ['b'] <+: "bad use of ".toList := by decide
      exact prefix_append (prefix_append (prefix_append (prefix_append h _) _) _) _
  | argumentCount =>
      have h : ['b'] <+: "bad number of arguments to ".toList := by decide
      exact prefix_append
        (prefix_append (prefix_append (prefix_append (prefix_append h _) _) _) _) _
  | wrongArity =>
      have h : ['w'] <+: "wrong number of arguments: ".toList := by decide
      exact prefix_append
        (prefix_append (prefix_append (prefix_append (prefix_append h _) _) _) _) _
  | notNumbers | notOrdered =>
      have h : ['\''] <+: "'".toList := by decide
      exact prefix_append
        (prefix_append (prefix_append (prefix_append (prefix_append h _) _) _) _) _

theorem opening_comparable {a b : Cause} (h : a.message = b.message) :
    a.opening <+: b.opening ∨ b.opening <+: a.opening := by
  have ha := a.opening_prefix_message
  rw [h] at ha
  exact List.prefix_or_prefix_of_prefix ha b.opening_prefix_message

theorem word_not_comparable (operation : Primitive) :
    ¬ (operation.word.toList <+: ['u'] ∨ ['u'] <+: operation.word.toList) ∧
      ¬ (operation.word.toList <+: ['a', 's'] ∨ ['a', 's'] <+: operation.word.toList) := by
  cases operation <;> decide

theorem eq_undefined_of_message {cause : Cause} {x : String}
    (h : cause.message = "undefined variable: " ++ x) : cause = .undefined x := by
  have hopening := opening_comparable (b := undefined x) h
  cases cause with
  | undefined y => exact congrArg undefined ((String.append_right_inj _).mp h)
  | notArray operation => exact absurd hopening (word_not_comparable operation).1
  | _ => exact absurd hopening (by simp [opening])

theorem eq_unassignable_of_message {cause : Cause} {x : String}
    (h : cause.message = "assigning undefined variable: " ++ x) : cause = .unassignable x := by
  have hopening := opening_comparable (b := unassignable x) h
  cases cause with
  | unassignable y => exact congrArg unassignable ((String.append_right_inj _).mp h)
  | notArray operation => exact absurd hopening (word_not_comparable operation).2
  | _ => exact absurd hopening (by simp [opening])

end Message

end Cause

/-- That an error points at a node of a program, and at the right one if it is about a name. -/
def Error.PointsInto (program : Expr) (error : Error) : Prop :=
  ∃ node, program.Contains node ∧ error.position = node.position ∧
    ∀ x ∈ error.cause.culprit?, node.leaf.word? = some x

/-- The causes for which a task may raise an error that has no place yet. -/
def Task.Owns (cause : Cause) : Task → Prop
  | .expression _ => False
  | .node e => ∀ x ∈ cause.culprit?, e.leaf.word? = some x
  | .special (.assign _ _) => ∀ x ∈ cause.culprit?, x = Form.assign.word
  | _ => cause.culprit? = none

section Owns

variable {cause : Cause} {task task' : Task} {v : Value}

theorem Task.Becomes.owns (h : task.Becomes task') (howns : task'.Owns cause) :
    task.Owns cause := by
  cases h with
  | sequence | call => exact howns
  | form hshaped =>
      intro x hx
      cases hshaped with
      | assign => exact congrArg some (howns x hx).symm
      | conditional | loop | sequence | define | function =>
          rw [show cause.culprit? = none from howns] at hx
          cases hx

theorem Task.Proceeds.owns (h : task.Proceeds v task') (howns : task'.Owns cause) :
    task.Owns cause := by
  cases h with
  | yes | no => cases howns
  | loop | round | sequence | operand => exact howns
  | operator =>
      intro x hx
      rw [show cause.culprit? = none from howns] at hx
      cases hx

end Owns

theorem raised_of_locate {r : Except Stop Value} {p : Option Position} {error : Error}
    (h : r.mapError (Stop.locate p) = .error (.raised error)) :
    ∃ position, r = .error (.raised ⟨error.cause, position⟩) ∧ error.position = position.or p := by
  rcases r with stop | v
  · rcases stop with rejection | ⟨cause, _ | q⟩ | fault
    · cases h
    · cases h
      exact ⟨none, rfl, rfl⟩
    · cases h
      exact ⟨some q, rfl, rfl⟩
    · cases h
  · cases h

section Placed

variable {d : Discipline} {limited : Bool} {task : Task} {s : ScopeId} {m m' : Machine}
  {v : Value} {r : Except Stop Value} {error : Error}

theorem Misshapen.placed {form : Form} {es : List Expr} (h : Misshapen form es error)
    (hes : ∀ e ∈ es, d.program.Contains e) :
    error.PointsInto d.program ∨ error.position = none := by
  have hnone : ∀ x, x ∉ error.cause.culprit? := by
    rw [Cause.culprit?_eq_none (by simp [h.kind_eq])]
    simp
  cases h with
  | count | noBody => exact .inr rfl
  | @target _ e => exact .inl ⟨e, hes e (by simp), rfl, fun x hx => absurd hx (hnone x)⟩
  | @parameter _ _ e => exact .inl ⟨e, hes e (by simp), rfl, fun x hx => absurd hx (hnone x)⟩

theorem Task.Finishes.placed (h : task.Finishes s m v r m') (hr : r = .error (.raised error)) :
    error.position = none ∧ task.Owns error.cause := by
  cases h with
  | loop | define | assign => cases hr
  | unassignable | notCallable =>
      cases hr
      exact ⟨rfl, by simp [Task.Owns, Cause.culprit?]⟩

theorem Task.Ends.placed (h : task.Ends limited s m r m') (htask : task.Obeys d)
    (hr : r = .error (.raised error)) :
    error.PointsInto d.program ∨ error.position = none ∧ task.Owns error.cause := by
  cases h with
  | literal | name | foreign | sequence | function | tooDeep | tooLong => cases hr
  | undefined =>
      cases hr
      exact .inr ⟨rfl, by simp [Task.Owns, Cause.culprit?, Expr.leaf, Expr.word?]⟩
  | misshapen h =>
      cases hr
      have hnone : error.cause.culprit? = none := Cause.culprit?_eq_none (by simp [h.kind_eq])
      refine (h.placed fun e he => ?_).imp_right fun hposition =>
        ⟨hposition, by simp [Task.Owns, hnone]⟩
      exact (htask.parts _ (List.mem_singleton.mpr rfl)).argument he
  | builtinArity | closureArity | notFunction =>
      cases hr
      exact .inr ⟨rfl, rfl⟩
  | @builtin b arguments _ _ _ hrun =>
      have heffect := b.effect_apply arguments m
      rw [hrun, hr] at heffect
      cases heffect with
      | raise hkind =>
          refine .inr ⟨rfl, Cause.culprit?_eq_none ?_⟩
          rcases hkind with hkind | hkind <;> simp [hkind]

/-- An error of a run points into the program, or it has no place yet and the task is to blame. -/
theorem Runs.placed (h : Runs limited task s m r m') (hm : m.Obeys d) (htask : task.Obeys d)
    (hplaces : ∀ node, d.program.Contains node → node.position ≠ none)
    (hr : r = .error (.raised error)) :
    error.PointsInto d.program ∨ error.position = none ∧ task.Owns error.cause := by
  induction h using Runs.steps generalizing error with
  | @located e _ _ _ _ _ ih =>
      obtain ⟨position, hraised, hposition⟩ := raised_of_locate hr
      left
      rcases ih hm ⟨htask.parts, htask.values⟩ hraised with
        ⟨node, hnode, hplace, hblame⟩ | ⟨hnone, howns⟩
      · -- the node that the error points at has a place, so the error keeps it
        obtain ⟨p, hp⟩ := Option.ne_none_iff_exists'.mp (hplaces node hnode)
        refine ⟨node, hnode, ?_, hblame⟩
        rw [hposition, show position = some p from hplace.trans hp, hp]
        rfl
      · refine ⟨e, htask.parts e (List.mem_singleton.mpr rfl), ?_, howns⟩
        rw [hposition, show position = none from hnone]
        rfl
  | stop hbegins _ ih =>
      rcases ih hm (htask.begins hbegins) hr with hpoints | ⟨-, howns⟩
      · exact .inl hpoints
      · cases howns
  | becomes hbecomes _ ih =>
      exact (ih hm (htask.becomes hbecomes) hr).imp_right (And.imp_right hbecomes.owns)
  | proceeds hbegins hproceeds h _ _ ih' =>
      obtain ⟨hm₁, hv⟩ := h.obeys hm (htask.begins hbegins)
      exact (ih' hm₁ (htask.proceeds hv.of_ok hproceeds) hr).imp_right
        (And.imp_right hproceeds.owns)
  | finishes _ hfinishes _ _ => exact .inr (hfinishes.placed hr)
  | enter hc _ _ ih =>
      rcases ih (hm.enter _ (List.forall_mem_cons.mp htask.values).2) (.body hm hc) hr with
        hpoints | ⟨-, howns⟩
      · exact .inl hpoints
      · cases howns
  | ends hends => exact hends.placed htask hr

end Placed

/-- Every error of a program points at the token that is to blame. The error of a program that was
read and ran in a fresh environment, if it did not run too deep, has the place of a node of the
program, which is the start of a string, a number or a word of its text. An error about an
undefined name points at that name, and one about assigning to an undefined name at the word of
the assignment. -/
theorem error_at_token {limits : Limits} {source : String} {e : Expr} {m m' : Machine}
    {error : Error} (hparse : Expr.parse limits.nesting source = .ok e)
    (hrun : (Program.runAlone limits source).run m = (.error (.raised error), m'))
    (hdeep : error.cause ≠ .tooDeep) :
    ∃ node t, e.Contains node ∧ t ∈ Token.scan source ∧
      (t.kind = .string ∨ t.kind = .number ∨ t.kind = .word) ∧
      error.position = node.position ∧ error.position = some t.start ∧
      (t.start.line, t.start.column) = lineCol source.toList t.start.offset ∧
      (∀ x, error.cause.message = "undefined variable: " ++ x → t.kind = .word ∧ t.text = x) ∧
      ∀ x, error.cause.message = "assigning undefined variable: " ++ x →
        t.kind = .word ∧ t.text = "set" := by
  obtain ⟨stop, m'', hruns, hstop⟩ := Program.runs_of_runAlone hparse hrun
  have hraised : stop = .raised error := by
    rcases stop with rejection | error' | fault
    · cases hstop
    · exact hstop.symm
    · cases fault with
      | tooDeep =>
          cases hstop
          exact absurd rfl hdeep
      | _ => cases hstop
  subst hraised
  let d := Discipline.ofProgram e (Expr.not_contains_foreign hparse)
  have hfresh : (Machine.fresh m.output).Obeys d := .fresh _ fun _ _ => .inl trivial
  have hplaces : ∀ node, d.program.Contains node → node.position ≠ none := by
    intro node hnode
    obtain ⟨t, -, -, hposition⟩ := Expr.starts_of_parse hparse hnode
    simp [hposition]
  obtain ⟨node, hnode, hplace, hblame⟩ :=
    (hruns.placed hfresh (.program d) hplaces rfl).resolve_right fun h => h.2
  obtain ⟨t, ht, hleaf, hposition⟩ := Expr.starts_of_parse hparse hnode
  refine ⟨node, t, hnode, ht, Token.kind_of_leaf? hleaf, hplace, hplace.trans hposition,
    (Token.lineCol_start (Token.mem_scan_iff.mp ht).1).symm, fun x hx => ?_, fun x hx => ?_⟩
  · rw [Cause.eq_undefined_of_message hx] at hblame
    exact Token.word_of_leaf? hleaf (hblame x rfl)
  · rw [Cause.eq_unassignable_of_message hx] at hblame
    exact Token.word_of_leaf? hleaf (hblame _ rfl)

/-- A function that assigns to an undefined name in a loop, and is called by another one. -/
def strayAssignment : String :=
  "do(define(f, fun(y, while(true,\n set(z, y)))),\n define(k, fun(h, h(k))), k(f))"

theorem error_at_token_strayAssignment :
    ∃ e m' error, Expr.parse 9 strayAssignment = .ok e ∧
      (Program.runAlone ⟨9, 30, 9⟩ strayAssignment).run .empty = (.error (.raised error), m') ∧
      error.cause ≠ .tooDeep ∧ error.cause.message = "assigning undefined variable: " ++ "z" ∧
      ∃ t ∈ Token.scan strayAssignment, error.position = some t.start ∧ t.kind = .word ∧
        t.text = "set" ∧ t.start = ⟨2, 2, 33⟩ := by
  have hparse : (Expr.parse 9 strayAssignment).toBool = true := by decide +kernel
  have hresult : ((Program.runAlone ⟨9, 30, 9⟩ strayAssignment).run .empty).1 =
      .error (.raised ⟨.unassignable "z", some ⟨2, 2, 33⟩⟩) := by decide +kernel
  rcases hrun : (Program.runAlone ⟨9, 30, 9⟩ strayAssignment).run .empty with ⟨r, m'⟩
  cases he : Expr.parse 9 strayAssignment with
  | error stop =>
      rw [he] at hparse
      cases hparse
  | ok e =>
      rw [hrun] at hresult
      subst hresult
      have hdeep : Cause.unassignable "z" ≠ .tooDeep := by decide
      obtain ⟨node, t, -, ht, -, -, hposition, -, -, hassign⟩ := error_at_token he hrun hdeep
      obtain ⟨hkind, htext⟩ := hassign "z" rfl
      exact ⟨e, m', _, rfl, rfl, hdeep, rfl, t, ht, hposition, hkind, htext,
        (Option.some.inj hposition).symm⟩

end Egg
