import Egg.Proofs.Region

namespace Egg

/-- The expressions inside a special form that it may evaluate. -/
@[simp] def Special.parts : Special → List Expr
  | .conditional test yes no => [test, yes, no]
  | .loop test body => [test, body]
  | .sequence body => body
  | .define _ _ e | .assign _ e => [e]
  | .function _ body => [body]

namespace Task

/-- The expressions that a task may evaluate. -/
@[simp] def parts : Task → List Expr
  | .expression e | .node e => [e]
  | .special form => form.parts
  | .round test body => [test, body]
  | .sequence _ rest | .operands _ _ rest => rest
  | .call _ _ => []

/-- The values that a task has in hand. -/
def values : Task → List Value
  | .sequence v _ => [v]
  | .operands callee done _ => callee :: done
  | .call callee arguments => callee :: arguments
  | _ => []

def isCall : Task → Bool
  | .call _ _ => true
  | _ => false

/-- A task that starts inside a region. A call has no scope to start from but those that its
values capture. -/
structure Confined (region : ScopeId → Prop) (s : ScopeId) (m : Machine) (task : Task) : Prop where
  parts : ∀ e ∈ task.parts, e.IsPlain
  values : ∀ v ∈ task.values, m.heap.Within region v
  scope : task.isCall = false → region s ∧ s < m.forest.size

end Task

theorem Shaped.mem_of_mem_parts {form : Form} {es : List Expr} {special : Special}
    (h : Shaped form es special) : ∀ e ∈ special.parts, e ∈ es := by
  cases h <;> simp

variable {region : ScopeId → Prop} {s : ScopeId} {m m' m₁ m₂ : Machine} {task : Task}
  {r : Except Stop Value} {v : Value}

namespace Task.Confined

theorem grow (h : task.Confined region s m) (hm : m.Grows s m') : task.Confined region s m' where
  parts := h.parts
  values v hv := hm.within (h.values v hv)
  scope hcall := ⟨(h.scope hcall).1, Nat.lt_of_lt_of_le (h.scope hcall).2 hm.size⟩

theorem next (h : task.Confined region s m) (hcall : task.isCall = false) {task' : Task}
    (hparts : ∀ e ∈ task'.parts, e ∈ task.parts)
    (hvalues : ∀ v ∈ task'.values, m.heap.Within region v) : task'.Confined region s m where
  parts e he := h.parts e (hparts e he)
  values := hvalues
  scope _ := h.scope hcall

theorem part (h : task.Confined region s m) (hcall : task.isCall = false) {e : Expr}
    (he : e ∈ task.parts) : (Task.expression e).Confined region s m := by
  refine h.next hcall (fun e' he' => ?_) (fun v hv => absurd hv List.not_mem_nil)
  rw [List.mem_singleton.mp he']
  exact he

theorem apply {f : Expr} {es : List Expr} {p : Option Position}
    (h : (Task.node (.apply f es p)).Confined region s m) :
    (Task.expression f).Confined region s m ∧ ∀ e ∈ es, e.IsPlain := by
  cases h.parts _ (List.mem_singleton.mpr rfl) with
  | apply hf hes =>
      refine ⟨⟨?_, h.values, h.scope⟩, hes⟩
      exact fun e he => List.mem_singleton.mp he ▸ hf

theorem begins (h : task.Confined region s m) {e : Expr} (hbegins : task.Begins e) :
    (Task.expression e).Confined region s m := by
  cases hbegins with
  | operator => exact h.apply.1
  | conditional | loop | round | sequence | define | assign | operand =>
      exact h.part rfl (by simp)

end Task.Confined

/-- How a task ends that started inside a region. -/
structure Outcome (region : ScopeId → Prop) (m : Machine) (r : Except Stop Value) (m' : Machine) :
    Prop where
  confined : m'.Confined region
  frame : ∀ i, ¬ region i → m'.forest.get? i = m.forest.get? i
  value : ∀ v, r = .ok v → m'.heap.Within region v

namespace Outcome

theorem trans {r' : Except Stop Value} (h : Outcome region m r m₁) (h' : Outcome region m₁ r' m₂) :
    Outcome region m r' m₂ where
  confined := h'.confined
  frame i hi := (h'.frame i hi).trans (h.frame i hi)
  value := h'.value

theorem ok (hm : m.Confined region) (hv : m.heap.Within region v) :
    Outcome region m (.ok v) m where
  confined := hm
  frame _ _ := rfl
  value _ h := Except.ok.inj h ▸ hv

theorem error (hm : m.Confined region) (stop : Stop) : Outcome region m (.error stop) m where
  confined := hm
  frame _ _ := rfl
  value _ h := by cases h

theorem locate {p : Option Position} (h : Outcome region m r m') :
    Outcome region m (r.mapError (Stop.locate p)) m' where
  confined := h.confined
  frame := h.frame
  value v hv := by
    cases r with
    | ok w => exact h.value v hv
    | error stop => cases hv

theorem define (hm : m.Confined region) (hv : m.heap.Within region v) (hs : region s) (x : String)
    (o : Origin) : Outcome region m (.ok v) (m.define s x o v) where
  confined := hm.define hv s x o
  frame i hi := by
    have hne : i ≠ s := by
      rintro rfl
      exact hi hs
    exact Forest.get?_define_of_ne hne x o v
  value _ h := Except.ok.inj h ▸ hv

theorem set (hm : m.Confined region) (hv : m.heap.Within region v) (hs : region s) (x : String) :
    Outcome region m (.ok v) (m.set s x v) where
  confined := hm.set hv s x
  frame i hi := by
    have hne : i ≠ s := by
      rintro rfl
      exact hi hs
    exact Forest.get?_set_of_ne hne x v
  value _ h := Except.ok.inj h ▸ hv

theorem function (hm : m.Confined region) {c : Closure} (hregion : region c.scope)
    (hscope : c.scope < m.forest.size) (hbody : c.body.IsPlain) :
    Outcome region m (.ok (.closure m.heap.closures.size)) (m.addClosure c) where
  confined := hm.addClosure hscope hbody
  frame _ _ := rfl
  value v hv := by
    cases hv
    exact .closure Array.getElem?_push_size hregion

theorem of_enter {c : Closure} {arguments : List Value} (hm : m.Confined region)
    (h : Outcome region (m.enter c arguments) r m') : Outcome region m r m' where
  confined := h.confined
  frame i hi := by
    have hne : i ≠ m.forest.size := fun h => hi (hm.fresh i (Nat.le_of_eq h.symm))
    rw [h.frame i hi, Machine.get?_enter_of_ne hne]
  value := h.value

theorem builtin {arguments : List Value} (hm : m.Confined region)
    (harguments : ∀ v ∈ arguments, m.heap.Within region v)
    (h : Builtin.Effect arguments m (r, m')) : Outcome region m r m' := by
  have hgrows : m.Grows 0 m' := h.grows 0
  cases h with
  | plain hv => exact .ok hm (.plain hv)
  | item hid hitems hv => exact .ok hm ((harguments _ hid).item hitems hv)
  | raise => exact .error hm _
  | overflow => exact .error hm _
  | print hv =>
      refine ⟨⟨hm.fresh, hm.parent, hm.value, hm.closure⟩, fun _ _ => rfl, ?_⟩
      rintro w ⟨⟩
      exact harguments _ hv
  | array =>
      refine ⟨⟨hm.fresh, hm.parent, ?_, hm.closure⟩, fun _ _ => rfl, ?_⟩
      · exact fun i scope hi hscope b hb => hgrows.within (hm.value i scope hi hscope b hb)
      · rintro w ⟨⟩
        exact .array Array.getElem?_push_size fun v hv => hgrows.within (harguments v hv)

end Outcome

/-- A task that starts inside a region of the machine stays there. -/
theorem Runs.confined {limited : Bool} (h : Runs limited task s m r m') (hm : m.Confined region)
    (htask : task.Confined region s m) : Outcome region m r m' := by
  -- the region stays the same throughout: it holds all scopes that calls are yet to make
  induction h with
  | located _ ih => exact (ih hm ⟨htask.parts, htask.values, htask.scope⟩).locate
  | stop hbegins _ ih => exact ih hm (htask.begins hbegins)
  | literal =>
      cases htask.parts _ (List.mem_singleton.mpr rfl) with
      | literal hv => exact .ok hm (.plain hv)
  | name hlookup => exact .ok hm (hm.within_of_lookup? (htask.scope rfl).1 hlookup)
  | undefined | foreign | misshapen | builtinArity | closureArity | notFunction | tooDeep
  | tooLong => exact .error hm _
  | form hshaped _ ih =>
      refine ih hm ⟨fun e he => htask.apply.2 e (hshaped.mem_of_mem_parts e he), ?_, htask.scope⟩
      exact fun v hv => absurd hv List.not_mem_nil
  | conditionalYes htest _ _ ihTest ihYes =>
      have hfirst := ihTest hm (htask.part rfl (by simp))
      have htask₁ := htask.grow htest.grows
      exact hfirst.trans (ihYes hfirst.confined
        (htask₁.part rfl (by simp)))
  | conditionalNo htest _ ihTest ihNo =>
      have hfirst := ihTest hm (htask.part rfl (by simp))
      have htask₁ := htask.grow htest.grows
      exact hfirst.trans (ihNo hfirst.confined
        (htask₁.part rfl (by simp)))
  | loopEnd htest ih => exact ih hm (htask.part rfl (by simp))
  | loopRound htest _ _ ihTest ihRound =>
      have hfirst := ihTest hm (htask.part rfl (by simp))
      have htask₁ := htask.grow htest.grows
      exact hfirst.trans (ihRound hfirst.confined
        (htask₁.next rfl (fun _ he => he) (fun _ hv => absurd hv List.not_mem_nil)))
  | round hbody _ ihBody ihLoop =>
      have hfirst := ihBody hm (htask.part rfl (by simp))
      have htask₁ := htask.grow hbody.grows
      exact hfirst.trans (ihLoop hfirst.confined
        (htask₁.next rfl (fun _ he => he) (fun _ hv => absurd hv List.not_mem_nil)))
  | sequence _ ih =>
      refine ih hm (htask.next rfl (fun _ he => he) fun v hv => ?_)
      rw [List.mem_singleton.mp hv]
      exact .plain trivial
  | sequenceEnd => exact .ok hm (htask.values _ (List.mem_singleton.mpr rfl))
  | sequenceNext hfirst _ ihFirst ihRest =>
      have hstep := ihFirst hm (htask.part rfl (by simp))
      have htask₁ := htask.grow hfirst.grows
      refine hstep.trans (ihRest hstep.confined
        (htask₁.next rfl (fun _ he => List.mem_cons_of_mem _ he) fun v hv => ?_))
      rw [List.mem_singleton.mp hv]
      exact hstep.value _ rfl
  | define _ ih =>
      have hvalue := ih hm (htask.part rfl (by simp))
      exact hvalue.trans (.define hvalue.confined (hvalue.value _ rfl) (htask.scope rfl).1 _ _)
  | assign _ howner ih =>
      have hvalue := ih hm (htask.part rfl (by simp))
      have hregion := hvalue.confined.of_mem_chain (htask.scope rfl).1
        (Forest.owner?_mem_chain howner)
      exact hvalue.trans (.set hvalue.confined (hvalue.value _ rfl) hregion _)
  | unassignable _ _ ih =>
      have hvalue := ih hm (htask.part rfl (by simp))
      exact hvalue.trans (.error hvalue.confined _)
  | function =>
      obtain ⟨hregion, hscope⟩ := htask.scope rfl
      exact .function hm hregion hscope (htask.parts _ (List.mem_singleton.mpr rfl))
  | notCallable _ _ _ ih =>
      have hoperator := ih hm htask.apply.1
      exact hoperator.trans (.error hoperator.confined _)
  | application _ hoperator _ _ ihOperator ihOperands =>
      have hstep := ihOperator hm htask.apply.1
      have htask₁ := htask.grow hoperator.grows
      refine hstep.trans (ihOperands hstep.confined ⟨htask.apply.2, fun v hv => ?_, htask₁.scope⟩)
      rw [List.mem_singleton.mp hv]
      exact hstep.value _ rfl
  | operand hfirst _ ihFirst ihRest =>
      have hstep := ihFirst hm (htask.part rfl (by simp))
      have htask₁ := htask.grow hfirst.grows
      refine hstep.trans (ihRest hstep.confined
        (htask₁.next rfl (fun _ he => List.mem_cons_of_mem _ he) fun v hv => ?_))
      rw [Task.values, ← List.cons_append, List.mem_append] at hv
      rcases hv with hv | hv
      · exact htask₁.values v hv
      · rw [List.mem_singleton.mp hv]
        exact hstep.value _ rfl
  | operandsEnd _ ih => exact ih hm ⟨htask.parts, htask.values, fun h => by cases h⟩
  | builtin _ hrun =>
      refine .builtin hm (fun v hv => htask.values v (List.mem_cons_of_mem _ hv)) ?_
      exact hrun ▸ Builtin.effect_apply _ _ _
  | @closure id c arguments s m m' r hc _ _ ih =>
      have hregion : region c.scope :=
        (htask.values _ List.mem_cons_self).scope (.closure hc)
      have harguments : ∀ v ∈ arguments, m.heap.Within region v :=
        fun v hv => htask.values v (List.mem_cons_of_mem _ hv)
      refine .of_enter hm (ih (hm.enter hregion harguments) ⟨?_, ?_, fun _ => ⟨?_, ?_⟩⟩)
      · intro e he
        rw [List.mem_singleton.mp he]
        exact (hm.closure id c hc).2
      · exact fun v hv => absurd hv List.not_mem_nil
      · exact hm.fresh _ (Nat.le_refl _)
      · rw [Machine.size_enter]
        exact Nat.lt_succ_self _

namespace Machine

/-- The scopes that can be reached from some: the scopes around them, those captured by what they
bind, and so on. -/
inductive Reaches (m : Machine) (roots : ScopeId → Prop) : ScopeId → Prop where
  | root {i : ScopeId} : roots i → Reaches m roots i
  | parent {i p : ScopeId} {scope : Scope} :
      Reaches m roots i → m.forest.get? i = some scope → scope.parent = some p → Reaches m roots p
  | captured {i j : ScopeId} {scope : Scope} {b : Binding} :
      Reaches m roots i → m.forest.get? i = some scope → b ∈ scope.bindings →
      m.heap.Captures b.value j → Reaches m roots j

theorem Confined.wellFormed (hm : m.Confined fun _ => True) : m.WellFormed :=
  ⟨fun i scope hscope => hm.value i scope trivial hscope, hm.closure⟩

namespace WellFormed

theorem confined (hm : m.WellFormed) : m.Confined fun _ => True where
  fresh _ _ := trivial
  parent _ _ _ _ _ _ := trivial
  value i scope _ hscope := hm.value i scope hscope
  closure := hm.closure

theorem lt_size_of_captures (hm : m.WellFormed) {i : ScopeId} (h : m.heap.Captures v i) :
    i < m.forest.size := by
  induction h with
  | closure hc => exact (hm.closure _ _ hc).1
  | item _ _ _ ih => exact ih

/-- What can be reached from some scopes is a region, together with all scopes yet to come. -/
theorem confined_reaches (hm : m.WellFormed) (roots : ScopeId → Prop) :
    m.Confined fun i => m.Reaches roots i ∨ m.forest.size ≤ i := by
  have hreaches : ∀ i scope, (m.Reaches roots i ∨ m.forest.size ≤ i) →
      m.forest.get? i = some scope → m.Reaches roots i := by
    intro i scope hi hscope
    rcases hi with hi | hi
    · exact hi
    · rw [Forest.get?, Array.getElem?_eq_none hi] at hscope
      cases hscope
  refine ⟨fun i hi => .inr hi, ?_, ?_, hm.closure⟩
  · exact fun i scope p hi hscope hp => .inl ((hreaches i scope hi hscope).parent hscope hp)
  · intro i scope hi hscope b hb
    refine (hm.value i scope hscope b hb).within fun j hj => .inl ?_
    exact (hreaches i scope hi hscope).captured hscope hb hj

end WellFormed

end Machine

theorem Runs.within_reach {limited : Bool} (h : Runs limited task s m r m') (hm : m.WellFormed)
    (roots : ScopeId → Prop) (hparts : ∀ e ∈ task.parts, e.IsPlain)
    (hvalues : ∀ v ∈ task.values, m.heap.Holds v ∧ ∀ i, m.heap.Captures v i → roots i)
    (hscope : task.isCall = false → roots s ∧ s < m.forest.size) :
    m'.WellFormed ∧
    (∀ i < m.forest.size, ¬ m.Reaches roots i → m'.forest.get? i = m.forest.get? i) ∧
    ∀ v i, r = .ok v → m'.heap.Captures v i →
      m.Reaches roots i ∨ m.forest.size ≤ i ∧ i < m'.forest.size := by
  have hwellFormed : m'.WellFormed := by
    refine (h.confined hm.confined ⟨hparts, fun v hv => (hvalues v hv).1,
      fun hcall => ?_⟩).confined.wellFormed
    exact ⟨trivial, (hscope hcall).2⟩
  have hreach := h.confined (hm.confined_reaches roots) ⟨hparts, fun v hv => ?_, fun hcall => ?_⟩
  · refine ⟨hwellFormed, fun i hi hnot => hreach.frame i ?_, fun v i hv hi => ?_⟩
    · exact fun h => h.elim hnot (Nat.not_le_of_lt hi)
    · refine ((hreach.value v hv).scope hi).imp_right fun hnew => ⟨hnew, ?_⟩
      exact hwellFormed.lt_size_of_captures hi
  · exact (hvalues v hv).1.within fun i hi => .inl (.root ((hvalues v hv).2 i hi))
  · exact ⟨.inl (.root (hscope hcall).1), (hscope hcall).2⟩

/-- Evaluation of a program touches only what can be reached from its scope: all other scopes that
were there stay as they are, whether it gives a value or stops, and a value that it gives captures
only scopes that could be reached or are new. A call touches only what can be reached from its
callee and arguments, so it leaves alone the state of any closure whose scope is not among that.
-/
theorem eval_within_reach {limit : Nat} {source : String} {e : Expr} {m : Machine} {scope : ScopeId}
    (he : Expr.parse limit source = .ok e) (hm : m.WellFormed) (hscope : scope < m.forest.size)
    (rounds depth : Nat) :
    ((eval rounds depth e scope).after m).WellFormed ∧
    (∀ i < m.forest.size, ¬ m.Reaches (· = scope) i →
      ((eval rounds depth e scope).after m).forest.get? i = m.forest.get? i) ∧
    (∀ v i, ((eval rounds depth e scope).run m).1 = .ok v →
      ((eval rounds depth e scope).after m).heap.Captures v i →
      m.Reaches (· = scope) i ∨
        m.forest.size ≤ i ∧ i < ((eval rounds depth e scope).after m).forest.size) ∧
    ∀ f arguments, (∀ v ∈ f :: arguments, m.heap.Holds v) →
      ∀ i < m.forest.size, ¬ m.Reaches (fun j => ∃ v ∈ f :: arguments, m.heap.Captures v j) i →
        ((call (eval rounds depth) f arguments).after m).forest.get? i = m.forest.get? i := by
  obtain ⟨hwellFormed, hframe, hcaptures⟩ := (runs_eval rounds depth e scope m).within_reach hm
    (· = scope) (fun e' he' => List.mem_singleton.mp he' ▸ Expr.isPlain_of_parse he)
    (fun v hv => absurd hv List.not_mem_nil) (fun _ => ⟨rfl, hscope⟩)
  refine ⟨hwellFormed, hframe, hcaptures, fun f arguments hvalues => ?_⟩
  have hcall := (runs_call rounds depth f arguments scope m).within_reach hm
    (fun j => ∃ v ∈ f :: arguments, m.heap.Captures v j)
    (fun e' he' => absurd he' List.not_mem_nil)
    (fun v hv => ⟨hvalues v hv, fun i hi => ⟨v, hv, hi⟩⟩) (fun h => by cases h)
  exact hcall.2.1

/-- Two counters that were made by separate calls. Each counts in a scope of its own, in which it
also knows itself. -/
def twoCounters : Machine where
  forest := ⟨#[⟨none, []⟩,
    ⟨some 0, [⟨"n", .source, .bool true⟩, ⟨"f", .source, .closure 0⟩]⟩,
    ⟨some 0, [⟨"n", .source, .bool true⟩, ⟨"f", .source, .closure 1⟩]⟩]⟩
  heap := ⟨#[], #[⟨[], .name "n" .source none, 1⟩, ⟨[], .name "n" .source none, 2⟩]⟩
  output := ""

theorem twoCounters_wellFormed : twoCounters.WellFormed where
  value i scope hscope b hb := by
    rcases i with _ | _ | _ | i
    · cases hscope
      cases hb
    · cases hscope
      rcases List.mem_cons.mp hb with rfl | hb
      · exact .plain trivial
      · rw [List.mem_singleton.mp hb]
        exact .closure rfl trivial
    · cases hscope
      rcases List.mem_cons.mp hb with rfl | hb
      · exact .plain trivial
      · rw [List.mem_singleton.mp hb]
        exact .closure rfl trivial
    · cases hscope
  closure id c hc := by
    rcases id with _ | _ | id
    · cases hc
      exact ⟨by decide, .name⟩
    · cases hc
      exact ⟨by decide, .name⟩
    · cases hc

theorem captures_twoCounters {v : Value} {i : ScopeId} (h : twoCounters.heap.Captures v i) :
    v = .closure 0 ∧ i = 1 ∨ v = .closure 1 ∧ i = 2 := by
  cases h with
  | @closure id c hc =>
      rcases id with _ | _ | id
      · cases hc
        exact .inl ⟨rfl, rfl⟩
      · cases hc
        exact .inr ⟨rfl, rfl⟩
      · cases hc
  | item hitems => cases hitems

theorem not_reaches_twoCounters {roots : ScopeId → Prop} (hroots : ∀ i, roots i → i = 1) :
    ¬ twoCounters.Reaches roots 2 := by
  have hle : ∀ i, twoCounters.Reaches roots i → i ≤ 1 := by
    intro i h
    induction h with
    | root hi => exact Nat.le_of_eq (hroots _ hi)
    | @parent i p scope _ hscope hp ih =>
        rcases i with _ | _ | i
        · cases hscope
          cases hp
        · cases hscope
          cases hp
          decide
        · exact absurd (Nat.le_of_succ_le_succ ih) (Nat.not_succ_le_zero i)
    | @captured i j scope b _ hscope hb hj ih =>
        rcases i with _ | _ | i
        · cases hscope
          cases hb
        · cases hscope
          rcases captures_twoCounters hj with ⟨-, rfl⟩ | ⟨hv, -⟩
          · exact Nat.le_refl 1
          · rcases List.mem_cons.mp hb with rfl | hb
            · cases hv
            · rw [List.mem_singleton.mp hb] at hv
              cases hv
        · exact absurd (Nat.le_of_succ_le_succ ih) (Nat.not_succ_le_zero i)
  exact fun h => absurd (hle 2 h) (by decide)

/-- Neither a program in the scope of the first counter nor a call of it touches the second. -/
theorem eval_within_reach_twoCounters :
    ∃ e, Expr.parse 9 "do(set(n, f), f())" = .ok e ∧ twoCounters.WellFormed ∧
      1 < twoCounters.forest.size ∧
      ((eval 9 9 e 1).after twoCounters).forest.get? 2 = twoCounters.forest.get? 2 ∧
      ((call (eval 9 9) (.closure 0) []).after twoCounters).forest.get? 2 =
        twoCounters.forest.get? 2 := by
  have hparse : (Expr.parse 9 "do(set(n, f), f())").toBool = true := by decide +kernel
  cases he : Expr.parse 9 "do(set(n, f), f())" with
  | error stop =>
      rw [he] at hparse
      cases hparse
  | ok e =>
      obtain ⟨-, hframe, -, hcall⟩ :=
        eval_within_reach he twoCounters_wellFormed (show 1 < twoCounters.forest.size by decide) 9 9
      refine ⟨e, rfl, twoCounters_wellFormed, by decide, ?_, ?_⟩
      · exact hframe 2 (by decide) (not_reaches_twoCounters fun i hi => hi)
      · refine hcall (.closure 0) [] ?_ 2 (by decide) (not_reaches_twoCounters ?_)
        · intro v hv
          rw [List.mem_singleton.mp hv]
          exact .closure rfl trivial
        · rintro i ⟨v, hv, hi⟩
          rw [List.mem_singleton.mp hv] at hi
          rcases captures_twoCounters hi with ⟨-, rfl⟩ | ⟨h, -⟩
          · rfl
          · cases h

end Egg
