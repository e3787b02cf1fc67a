import Egg.Proofs.IdleEvent
import Egg.Proofs.RunSight
import Egg.Proofs.ScopeForest

namespace Egg

/-- That an event makes a session evaluate an expression. -/
inductive Event.Submits (limits : Limits) : Event → Expr → Prop where
  | text {text : String} {e : Expr} :
      ¬ (Session.normalize text).toList.all Text.isBlank = true →
      Command.ofLine? (Session.normalize text) = none →
      Expr.parse limits.nesting (Session.normalize text) = .ok e → Submits limits (.text text) e

theorem Event.Submits.isPlain {limits : Limits} {event : Event} {e : Expr}
    (h : event.Submits limits e) : e.IsPlain := by
  cases h with
  | text _ _ hparse => exact Expr.isPlain_of_parse hparse

theorem Machine.WellFormed.pushProgram {m : Machine} (hm : m.WellFormed) {registry : Registry}
    (h : ∀ b ∈ registry.bindings, m.heap.Holds b.2) :
    { m with forest := m.forest.pushProgram registry }.WellFormed :=
  (hm.newScope none .host h).push (some m.forest.size)

namespace Session

variable {limits : Limits} {s : Session} {event : Event} {e : Expr}

theorem after_showValue (limits : Limits) (scope : ScopeId) (source : String) (m : Machine) :
    (showValue limits scope source).after m = (Program.run limits scope source).after m := by
  rw [Exec.after, Exec.after, showValue, Exec.run_bind]
  rcases (Program.run limits scope source).run m with ⟨stop | v, m'⟩
  · rfl
  · rcases Exec.quiet_display v m' with ⟨text, hshow⟩ | ⟨kind, hshow⟩
    · exact congrArg Prod.snd hshow
    · exact congrArg Prod.snd hshow

theorem session_runProgram (limits : Limits) (s : Session) (source : String) :
    (s.runProgram limits source).session = match Expr.parse limits.nesting source with
      | .error _ => s
      | .ok e => s.resume ((Program.evalWithin limits e s.scope).after s.machine) := by
  have hresume : (s.runProgram limits source).session =
      s.resume ((showValue limits s.scope source).after s.machine) := by
    rw [runProgram, Exec.after]
    rcases (showValue limits s.scope source).run s.machine with
      ⟨(rejection | error | fault) | shown, m⟩
    · rfl
    · rfl
    · rfl
    · rfl
  rw [hresume, after_showValue, Exec.after, Program.run_eq]
  cases Expr.parse limits.nesting source with
  | error stop => rfl
  | ok e => rfl

theorem session_feed_of_submits (h : event.Submits limits e) :
    (s.feed limits event).session =
      s.resume ((Program.evalWithin limits e s.scope).after s.machine) := by
  cases h with
  | text hblank hline hparse =>
      rw [feed, submit_of_program hblank hline, session_runProgram, hparse]

/-- All that an event can do to the scopes and the heap of a session. -/
inductive Moves (limits : Limits) (s : Session) (event : Event) : Session → Prop where
  | stays {tracing : Bool} : Moves limits s event { s with tracing := tracing }
  | renews : Moves limits s event s.renew
  | runs {e : Expr} : event.Submits limits e →
      Moves limits s event (s.resume ((Program.evalWithin limits e s.scope).after s.machine))

theorem moves_feed (limits : Limits) (s : Session) (event : Event) :
    s.Moves limits event (s.feed limits event).session := by
  cases event with
  | interrupt | enter => exact .stays
  | text text =>
      by_cases hblank : (normalize text).toList.all Text.isBlank = true
      · rw [feed, submit_of_blank hblank]
        exact .stays
      · cases hline : Command.ofLine? (normalize text) with
        | some command =>
            rw [feed, submit_of_command hline]
            cases command with
            | clear | unknown => exact .stays
            | reset => exact .renews
            | traceback argument =>
                simp only [obey]
                split
                · exact .stays
                · exact .stays
        | none =>
            cases hparse : Expr.parse limits.nesting (normalize text) with
            | ok e =>
                have hsubmits : Event.Submits limits (.text text) e := .text hblank hline hparse
                rw [session_feed_of_submits hsubmits]
                exact .runs hsubmits
            | error stop =>
                rw [feed, submit_of_program hblank hline, session_runProgram, hparse]
                exact .stays

/-- A session in which everything is in order. -/
structure Sound (s : Session) : Prop where
  wellFormed : s.machine.WellFormed
  scope : s.scope < s.forest.size

theorem Sound.renew (h : s.machine.WellFormed) : s.renew.Sound := by
  have hforest : s.renew.forest = s.forest.pushProgram .standard := by simp only [Session.renew]
  have hscope : s.renew.scope = s.renew.forest.size - 1 := by simp only [Session.renew]
  refine ⟨?_, ?_⟩
  · rw [machine, hforest, heap_renew]
    exact h.pushProgram fun b hb => .plain (Registry.isPlain_of_mem_standard hb)
  · rw [hscope, hforest, Forest.size_pushProgram]
    exact Nat.lt_succ_self _

theorem sound_start (tracing : Bool) : (start tracing).Sound := by
  refine .renew ⟨fun i scope hscope => ?_, fun id c hc => ?_⟩
  · cases hscope
  · cases hc

theorem Sound.confined (h : s.Sound) (he : event.Submits limits e) :
    (Task.expression e).Confined (fun _ => True) s.scope s.machine where
  parts _ he' := List.mem_singleton.mp he' ▸ he.isPlain
  values _ hv := absurd hv List.not_mem_nil
  scope _ := ⟨trivial, h.scope⟩

theorem Moves.extends {s' : Session} (h : s.Moves limits event s') : s.heap.Extends s'.heap := by
  cases h with
  | stays => exact .refl _
  | renews =>
      rw [heap_renew]
      exact .refl _
  | runs => exact (runs_eval limits.rounds limits.depth _ s.scope s.machine).extends

theorem Moves.sound {s' : Session} (h : s.Moves limits event s') (hs : s.Sound) : s'.Sound := by
  cases h with
  | stays => exact ⟨hs.wellFormed, hs.scope⟩
  | renews => exact .renew hs.wellFormed
  | @runs e he =>
      have hruns := runs_eval limits.rounds limits.depth e s.scope s.machine
      have hafter := (hruns.confined hs.wellFormed.confined (hs.confined he)).confined.wellFormed
      exact ⟨⟨hafter.value, hafter.closure⟩, Nat.lt_of_lt_of_le hs.scope hruns.grows.size⟩

/-- The sights of a session over some events: those between two events, and those of the programs
that the events submit. -/
inductive Sees (limits : Limits) : Session → List Event → Sight → Prop where
  | now {s : Session} {events : List Event} : Sees limits s events ⟨s.machine, []⟩
  | during {s : Session} {event : Event} {events : List Event} {e : Expr} {sight : Sight} :
      event.Submits limits e →
      Passes true (.expression e) s.scope s.machine
        ((Program.evalWithin limits e s.scope).run s.machine).1
        ((Program.evalWithin limits e s.scope).after s.machine) sight →
      Sees limits s (event :: events) sight
  | later {s s' : Session} {event : Event} {step : Step} {events : List Event} {sight : Sight} :
      s.feed limits event = .done s' step → Sees limits s' events sight →
      Sees limits s (event :: events) sight
  | last {s s' : Session} {event : Event} {reply : Reply} {fault : Fault} {events : List Event} :
      s.feed limits event = .broken s' reply fault →
      Sees limits s (event :: events) ⟨s'.machine, []⟩

theorem extends_converse (limits : Limits) (s : Session) (events : List Event) :
    s.heap.Extends (s.converse limits events).final.heap := by
  induction events generalizing s with
  | nil => exact .refl _
  | cons event events ih =>
      have hmoves := (s.moves_feed limits event).extends
      rw [converse]
      cases hturn : s.feed limits event with
      | done s' step =>
          rw [hturn] at hmoves
          exact hmoves.trans (ih s')
      | broken s' reply fault =>
          rw [hturn] at hmoves
          exact hmoves

theorem extends_converse_cons (limits : Limits) (s : Session) (event : Event)
    (events : List Event) :
    (s.feed limits event).session.heap.Extends
      (s.converse limits (event :: events)).final.heap := by
  rw [converse]
  cases s.feed limits event with
  | done s' step => exact extends_converse limits s' events
  | broken s' reply fault => exact .refl _

theorem Sees.extends {events : List Event} {sight : Sight} (h : s.Sees limits events sight) :
    sight.machine.heap.Extends (s.converse limits events).final.heap := by
  induction h with
  | now => exact extends_converse limits _ _
  | @during s event events e sight he hpasses =>
      have hrest := extends_converse_cons limits s event events
      rw [session_feed_of_submits he] at hrest
      exact hpasses.extends.2.trans hrest
  | later hturn _ ih =>
      rw [converse, hturn]
      exact ih
  | last hturn =>
      rw [converse, hturn]
      exact .refl _

theorem Sees.sound {events : List Event} {sight : Sight} (h : s.Sees limits events sight)
    (hs : s.Sound) : sight.Sound := by
  induction h with
  | now => exact ⟨hs.wellFormed, fun v hv => absurd hv List.not_mem_nil⟩
  | during he hpasses => exact hpasses.sound hs.wellFormed (hs.confined he)
  | @later s s' event _ _ _ hturn _ ih =>
      have hmoves := s.moves_feed limits event
      rw [hturn] at hmoves
      exact ih (hmoves.sound hs)
  | @last s s' event _ _ _ hturn =>
      have hmoves := s.moves_feed limits event
      rw [hturn] at hmoves
      exact ⟨(hmoves.sound hs).wellFormed, fun v hv => absurd hv List.not_mem_nil⟩

theorem Sees.append {front : List Event} {sight : Sight} (h : s.Sees limits front sight)
    (back : List Event) : s.Sees limits (front ++ back) sight := by
  induction h with
  | now => exact .now
  | during he hpasses => exact .during he hpasses
  | later hturn _ ih => exact .later hturn ih
  | last hturn => exact .last hturn

theorem sees_final (limits : Limits) (s : Session) (events : List Event) :
    s.Sees limits events ⟨(s.converse limits events).final.machine, []⟩ := by
  induction events generalizing s with
  | nil => exact .now
  | cons event events ih =>
      rw [converse]
      cases hturn : s.feed limits event with
      | done s' step => exact .later hturn (ih s')
      | broken s' reply fault => exact .last hturn

end Session

theorem Builtin.run_apply_array {b : Builtin} (h : b.primitive = .array) (items : List Value)
    (m : Machine) :
    (b.apply items).run m = (.ok (.array m.heap.arrays.size),
      { m with heap := { m.heap with arrays := m.heap.arrays.push items } }) := by
  simp only [apply, h]
  rfl

theorem run_eval_function {f : Expr} {es : List Expr} {parameters : List String} {body : Expr}
    (hform : f.form? = some .function)
    (hshape : Form.function.shape es = .ok (.function parameters body))
    (rounds depth : Nat) (p : Option Position) (s : ScopeId) (m : Machine) :
    (eval rounds (depth + 1) (.apply f es p) s).run m =
      (.ok (.closure m.heap.closures.size), m.addClosure ⟨parameters, body, s⟩) := by
  rw [eval, Exec.run_locate]
  simp only [evalStep, hform, hshape]
  rfl

namespace Heap.Holds

variable {heap : Heap}

theorem exists_items {id : ArrayId} (h : heap.Holds (.array id)) :
    ∃ items, heap.arrays[id]? = some items := by
  cases h with
  | plain hplain => cases hplain
  | array hitems => exact ⟨_, hitems⟩

theorem exists_closure {id : ClosureId} (h : heap.Holds (.closure id)) :
    ∃ c, heap.closures[id]? = some c := by
  cases h with
  | plain hplain => cases hplain
  | closure hc => exact ⟨_, hc⟩

theorem array_size_not_equals {w : Value} (h : heap.Holds w) :
    (Value.array heap.arrays.size).equals w = false ∧
      w.equals (.array heap.arrays.size) = false := by
  cases w with
  | array id =>
      obtain ⟨items, hitems⟩ := h.exists_items
      -- the number of the next array is above those of all that are there
      have hlt : id < heap.arrays.size := (Array.getElem?_eq_some_iff.mp hitems).1
      simp [Value.equals, Nat.ne_of_lt hlt, Nat.ne_of_gt hlt]
  | bool | number | string | closure | builtin => exact ⟨rfl, rfl⟩

theorem closure_size_not_equals {w : Value} (h : heap.Holds w) :
    (Value.closure heap.closures.size).equals w = false ∧
      w.equals (.closure heap.closures.size) = false := by
  cases w with
  | closure id =>
      obtain ⟨c, hc⟩ := h.exists_closure
      have hlt : id < heap.closures.size := (Array.getElem?_eq_some_iff.mp hc).1
      simp [Value.equals, Nat.ne_of_lt hlt, Nat.ne_of_gt hlt]
  | bool | number | string | array | builtin => exact ⟨rfl, rfl⟩

end Heap.Holds

namespace Session

/-- Object identity is sound. Take any two sights of a session, and the builtin that compares.
Arrays found at them that compare equal have the same items, and still have them at the end of the
session; and closures that compare equal have the same parameters, body and scope. An array that
is made at a sight has the items that it is made of and is equal to nothing that is there, and so
it is with a closure. -/
theorem identity_sound {limits : Limits} {tracing : Bool} {events : List Event} {σ σ' : Sight}
    (h : (start tracing).Sees limits events σ) (h' : (start tracing).Sees limits events σ')
    {eq : Builtin} (heq : eq.primitive = .equal) :
    (∀ a b m, σ.Has (.array a) → σ'.Has (.array b) →
      (eq.apply [.array a, .array b]).run m = (.ok (.bool true), m) →
      ∃ items, σ.machine.heap.arrays[a]? = some items ∧ σ'.machine.heap.arrays[b]? = some items ∧
        ((start tracing).converse limits events).final.heap.arrays[a]? = some items) ∧
    (∀ a b m, σ.Has (.closure a) → σ'.Has (.closure b) →
      (eq.apply [.closure a, .closure b]).run m = (.ok (.bool true), m) →
      ∃ c, σ.machine.heap.closures[a]? = some c ∧ σ'.machine.heap.closures[b]? = some c ∧
        ((start tracing).converse limits events).final.heap.closures[a]? = some c) ∧
    (∀ (make : Builtin) items, make.primitive = .array →
      ∃ a m, (make.apply items).run σ.machine = (.ok (.array a), m) ∧
        m.heap.arrays[a]? = some items ∧ ∀ w, σ.Has w →
          (eq.apply [.array a, w]).run m = (.ok (.bool false), m) ∧
          (eq.apply [w, .array a]).run m = (.ok (.bool false), m)) ∧
    ∀ rounds depth f es p scope parameters body, Expr.form? f = some .function →
      Form.function.shape es = .ok (.function parameters body) →
      ∃ a m, (eval rounds (depth + 1) (.apply f es p) scope).run σ.machine = (.ok (.closure a), m) ∧
        m.heap.closures[a]? = some ⟨parameters, body, scope⟩ ∧ ∀ w, σ.Has w →
          (eq.apply [.closure a, w]).run m = (.ok (.bool false), m) ∧
          (eq.apply [w, .closure a]).run m = (.ok (.bool false), m) := by
  have hsound := h.sound (sound_start tracing)
  have hsound' := h'.sound (sound_start tracing)
  refine ⟨fun a b m ha hb hab => ?_, fun a b m ha hb hab => ?_, fun make items hmake => ?_, ?_⟩
  · rw [eq.run_apply_equal heq] at hab
    obtain rfl : a = b := of_decide_eq_true (Value.bool.inj (Except.ok.inj (Prod.mk.inj hab).1))
    obtain ⟨items, hitems⟩ := (hsound.holds ha).exists_items
    obtain ⟨items', hitems'⟩ := (hsound'.holds hb).exists_items
    -- what the array holds at either sight it holds at the end
    have hfinal := h.extends.arrays a items hitems
    cases hfinal.symm.trans (h'.extends.arrays a items' hitems')
    exact ⟨items, hitems, hitems', hfinal⟩
  · rw [eq.run_apply_equal heq] at hab
    obtain rfl : a = b := of_decide_eq_true (Value.bool.inj (Except.ok.inj (Prod.mk.inj hab).1))
    obtain ⟨c, hc⟩ := (hsound.holds ha).exists_closure
    obtain ⟨c', hc'⟩ := (hsound'.holds hb).exists_closure
    have hfinal := h.extends.closures a c hc
    cases hfinal.symm.trans (h'.extends.closures a c' hc')
    exact ⟨c, hc, hc', hfinal⟩
  · refine ⟨_, _, make.run_apply_array hmake items _, Array.getElem?_push_size, fun w hw => ?_⟩
    obtain ⟨hleft, hright⟩ := (hsound.holds hw).array_size_not_equals
    rw [eq.run_apply_equal heq, eq.run_apply_equal heq, hleft, hright]
    exact ⟨rfl, rfl⟩
  · intro rounds depth f es p scope parameters body hform hshape
    refine ⟨_, _, run_eval_function hform hshape rounds depth p scope _, Array.getElem?_push_size,
      fun w hw => ?_⟩
    obtain ⟨hleft, hright⟩ := (hsound.holds hw).closure_size_not_equals
    rw [eq.run_apply_equal heq, eq.run_apply_equal heq, hleft, hright]
    exact ⟨rfl, rfl⟩

/-- The events of a session that makes an array with a function in it. -/
def making : List Event := [.text "define(a, array(fun(a)))"]

/-- The events of one that goes on to set the name of the array to another array around it. -/
def wrapping : List Event := making ++ [.text "set(a, array(a))"]

/-- The sight of such a session at its end. -/
def sightAfter (events : List Event) : Sight :=
  ⟨((start false).converse ⟨9, 9, 9⟩ events).final.machine, []⟩

theorem has_sightAfter_making :
    (sightAfter making).Has (.array 0) ∧ (sightAfter making).Has (.closure 0) := by
  have hscope : (sightAfter making).machine.forest.get? 1 =
      some ⟨some 0, [⟨"a", .source, .array 0⟩]⟩ := by decide +kernel
  have hitems : (sightAfter making).machine.heap.arrays[0]? = some [.closure 0] := by decide +kernel
  have harray : (sightAfter making).Has (.array 0) :=
    .bound (b := ⟨"a", .source, .array 0⟩) hscope List.mem_cons_self
  exact ⟨harray, harray.item hitems List.mem_cons_self⟩

theorem has_sightAfter_wrapping :
    (sightAfter wrapping).Has (.array 0) ∧ (sightAfter wrapping).Has (.closure 0) := by
  have hscope : (sightAfter wrapping).machine.forest.get? 1 =
      some ⟨some 0, [⟨"a", .source, .array 1⟩]⟩ := by decide +kernel
  have houter : (sightAfter wrapping).machine.heap.arrays[1]? = some [.array 0] := by decide +kernel
  have hinner : (sightAfter wrapping).machine.heap.arrays[0]? = some [.closure 0] := by
    decide +kernel
  have harray : (sightAfter wrapping).Has (.array 1) :=
    .bound (b := ⟨"a", .source, .array 1⟩) hscope List.mem_cons_self
  have hitem := harray.item houter List.mem_cons_self
  exact ⟨hitem, hitem.item hinner List.mem_cons_self⟩

theorem identity_sound_wrapping :
    (start false).Sees ⟨9, 9, 9⟩ wrapping (sightAfter making) ∧
    (start false).Sees ⟨9, 9, 9⟩ wrapping (sightAfter wrapping) ∧
    (∃ items, (sightAfter making).machine.heap.arrays[0]? = some items ∧
      (sightAfter wrapping).machine.heap.arrays[0]? = some items) ∧
    (∃ c, (sightAfter making).machine.heap.closures[0]? = some c ∧
      (sightAfter wrapping).machine.heap.closures[0]? = some c) ∧
    (∃ a m, ((Builtin.mk "array" .array 7).apply [.closure 0]).run (sightAfter wrapping).machine =
        (.ok (.array a), m) ∧
      ((Builtin.mk "==" .equal 4).apply [.array a, .array 0]).run m = (.ok (.bool false), m)) ∧
    ∃ a m, (eval 9 9 (.apply (.name "fun" .source none) [.name "a" .source none] none) 1).run
        (sightAfter wrapping).machine = (.ok (.closure a), m) ∧
      ((Builtin.mk "==" .equal 4).apply [.closure a, .closure 0]).run m =
        (.ok (.bool false), m) := by
  have hsees : (start false).Sees ⟨9, 9, 9⟩ wrapping (sightAfter making) :=
    (sees_final ⟨9, 9, 9⟩ (start false) making).append [.text "set(a, array(a))"]
  have hsees' := sees_final ⟨9, 9, 9⟩ (start false) wrapping
  have heq : (Builtin.mk "==" .equal 4).primitive = .equal := rfl
  obtain ⟨harray, hclosure⟩ := has_sightAfter_making
  obtain ⟨harray', hclosure'⟩ := has_sightAfter_wrapping
  obtain ⟨hsame, hsameClosure, -, -⟩ := identity_sound hsees hsees' heq
  obtain ⟨-, -, hmake, hfunction⟩ := identity_sound hsees' hsees' heq
  obtain ⟨items, hleft, hright, -⟩ := hsame 0 0 .empty harray harray' rfl
  obtain ⟨c, hleftClosure, hrightClosure, -⟩ := hsameClosure 0 0 .empty hclosure hclosure' rfl
  obtain ⟨a, m, hrun, -, hfresh⟩ := hmake ⟨"array", .array, 7⟩ [.closure 0] rfl
  obtain ⟨b, m', hrun', -, hfresh'⟩ := hfunction 9 8 (.name "fun" .source none)
    [.name "a" .source none] none 1 [] (.name "a" .source none) rfl rfl
  exact ⟨hsees, hsees', ⟨items, hleft, hright⟩, ⟨c, hleftClosure, hrightClosure⟩,
    ⟨a, m, hrun, (hfresh _ harray').1⟩, ⟨b, m', hrun', (hfresh' _ hclosure').1⟩⟩

end Session

end Egg
