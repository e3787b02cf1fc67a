import Egg.Program
import Egg.Proofs.MachineChange

namespace Egg

namespace Forest

/-- The scopes that are met on the way outwards from a scope, up to one that stands inside no
other. -/
inductive Outwards (f : Forest) : ScopeId → List ScopeId → Prop where
  | outermost {i : ScopeId} : i < f.size → f.parent? i = none → Outwards f i [i]
  | inside {i p : ScopeId} {path : List ScopeId} :
      i < f.size → f.parent? i = some p → Outwards f p path → Outwards f i (i :: path)

theorem lt_size_of_parent? {f : Forest} {i p : ScopeId} (h : f.parent? i = some p) :
    i < f.size := by
  obtain ⟨scope, hscope, -⟩ := Option.bind_eq_some_iff.mp h
  exact (Array.getElem?_eq_some_iff.mp hscope).1

theorem chain_eq {f : Forest} (hf : f.Ordered) {i : ScopeId} (hi : i < f.size) :
    f.chain i = i :: match f.parent? i with
      | none => []
      | some p => f.chain p := by
  obtain ⟨scope, hscope⟩ : ∃ scope, f.get? i = some scope := ⟨_, Array.getElem?_eq_getElem hi⟩
  rw [chain, parent?, hscope]
  cases hparent : scope.parent with
  | none => simp [hparent]
  | some p =>
      have hlt : p < i := hf i p (by rw [parent?, hscope]; exact hparent)
      simp [hparent, hlt]

theorem outwards_chain {f : Forest} (hf : f.Ordered) {i : ScopeId} (hi : i < f.size) :
    f.Outwards i (f.chain i) ∧ (f.chain i).Pairwise (· > ·) := by
  suffices h : f.Outwards i (f.chain i) ∧ (f.chain i).Pairwise (· > ·) ∧ ∀ j ∈ f.chain i, j ≤ i from
    ⟨h.1, h.2.1⟩
  induction i using Nat.strongRecOn with
  | ind i ih =>
      rw [chain_eq hf hi]
      cases hparent : f.parent? i with
      | none => exact ⟨.outermost hi hparent, by simp, by simp⟩
      | some p =>
          have hlt := hf i p hparent
          obtain ⟨hout, hpairwise, hle⟩ := ih p hlt (Nat.lt_trans hlt hi)
          refine ⟨.inside hi hparent hout, List.pairwise_cons.mpr ⟨fun j hj => ?_, hpairwise⟩, ?_⟩
          · exact Nat.lt_of_le_of_lt (hle j hj) hlt
          · intro j hj
            rcases List.mem_cons.mp hj with rfl | hj
            · exact Nat.le_refl _
            · exact Nat.le_of_lt (Nat.lt_of_le_of_lt (hle j hj) hlt)

end Forest

/-- What a host program can do: make an outermost scope with bindings of its own or with the
registered names, or a scope inside another one; bind a name or change one; make an array; run a
program in a scope; and call a function that it has. -/
inductive Action where
  | newScope (bindings : List (String × Value))
  | newTop (registry : Registry)
  | child (parent : ScopeId)
  | define (scope : ScopeId) (name : String) (value : Value)
  | assign (scope : ScopeId) (name : String) (value : Value)
  | newArray (items : List Value)
  | run (scope : ScopeId) (source : String)
  | call (callee : Value) (arguments : List Value)

namespace Action

/-- Carry out an action, which may give the host a value. -/
def exec (limits : Limits) : Action → Exec (Option Value)
  | newScope bindings => do
    let _ ← Exec.newScope none .host bindings
    return none
  | newTop registry => do
    let _ ← Exec.newTop registry
    return none
  | child parent => do
    let _ ← Exec.newScope (some parent) .host []
    return none
  | define scope name value => do
    Exec.define scope name .host value
    return none
  | assign scope name value => do
    Exec.assign scope name value
    return none
  | newArray items => return some (← Exec.newArray items)
  | run scope source => return some (← Program.run limits scope source)
  | call callee arguments => return some (← Program.callWithin limits callee arguments)

/-- An action that can be taken: it names scopes that are there, and values that are on the heap.
-/
def Possible (m : Machine) : Action → Prop
  | newScope bindings => ∀ b ∈ bindings, m.heap.Holds b.2
  | newTop registry => ∀ b ∈ registry.bindings, m.heap.Holds b.2
  | child parent => parent < m.forest.size
  | define scope _ value | assign scope _ value => scope < m.forest.size ∧ m.heap.Holds value
  | newArray items => ∀ v ∈ items, m.heap.Holds v
  | run scope _ => scope < m.forest.size
  | call callee arguments => ∀ v ∈ callee :: arguments, m.heap.Holds v

/-- The value that an action gives, if it gives one. -/
def given (limits : Limits) (m : Machine) (a : Action) : Option Value :=
  match ((a.exec limits).run m).1 with
  | .ok v => v
  | .error _ => none

end Action

/-- A host program: the machine it works on, and the values it has been given so far. -/
structure Host where
  machine : Machine
  values : List Value

namespace Host

def start : Host := ⟨.empty, []⟩

/-- The host after an action. What the action did stays done, also if it stopped. -/
def act (limits : Limits) (h : Host) (a : Action) : Host :=
  ⟨(a.exec limits).after h.machine, h.values ++ (a.given limits h.machine).toList⟩

inductive Step (limits : Limits) (h : Host) : Host → Prop where
  | act {a : Action} : a.Possible h.machine → Step limits h (h.act limits a)

def Steps (limits : Limits) : Host → Host → Prop :=
  Relation.ReflTransGen (Step limits)

/-- The values that are held anywhere: bound in a scope, given to the host, or inside an array
that is held. -/
inductive Has (h : Host) : Value → Prop where
  | bound {i : ScopeId} {scope : Scope} {b : Binding} :
      h.machine.forest.get? i = some scope → b ∈ scope.bindings → Has h b.value
  | given {v : Value} : v ∈ h.values → Has h v
  | item {id : ArrayId} {items : List Value} {v : Value} :
      Has h (.array id) → h.machine.heap.arrays[id]? = some items → v ∈ items → Has h v

/-- What holds of a host in every state of a session. -/
structure Sound (h : Host) : Prop where
  wellFormed : h.machine.WellFormed
  nested : h.machine.Nested
  values : ∀ v ∈ h.values, h.machine.heap.Holds v

theorem Sound.holds {h : Host} (hh : h.Sound) {v : Value} (hv : h.Has v) :
    h.machine.heap.Holds v := by
  induction hv with
  | bound hscope hb => exact hh.wellFormed.value _ _ hscope _ hb
  | given hv => exact hh.values _ hv
  | item _ hitems hv ih => exact ih.item hitems hv

end Host

variable {m m' : Machine} {s : ScopeId}

namespace Machine.WellFormed

theorem push (hm : m.WellFormed) (parent : Option ScopeId) :
    { m with forest := m.forest.push ⟨parent, []⟩ }.WellFormed where
  value i scope hscope b hb := by
    rw [Forest.get?_push] at hscope
    split at hscope
    · cases hscope
      cases hb
    · exact hm.value i scope hscope b hb
  closure id c hc := by
    obtain ⟨hscope, hbody⟩ := hm.closure id c hc
    refine ⟨?_, hbody⟩
    rw [Forest.size_push]
    exact Nat.lt_succ_of_lt hscope

theorem newScope (hm : m.WellFormed) (parent : Option ScopeId) (o : Origin)
    {bindings : List (String × Value)} (h : ∀ b ∈ bindings, m.heap.Holds b.2) :
    { m with
      forest := (m.forest.push ⟨parent, []⟩).defineAll m.forest.size o bindings }.WellFormed :=
  ((hm.push parent).confined.defineAll m.forest.size o h).wellFormed

end Machine.WellFormed

/-- What an action must do for a session to stay in order. -/
structure Exec.Safe (x : Exec (Option Value)) (m : Machine) : Prop where
  changes : m.Changes (x.after m)
  wellFormed : (x.after m).WellFormed
  holds : ∀ v, (x.run m).1 = .ok (some v) → (x.after m).heap.Holds v

namespace Exec

theorem safe_bind {α : Type} {x : Exec α} {f : α → Option Value} {r : Except Stop α}
    (hrun : x.run m = (r, m')) (hchanges : m.Changes m') (hm' : m'.WellFormed)
    (hvalue : ∀ a v, r = .ok a → f a = some v → m'.heap.Holds v) :
    (x >>= fun a => pure (f a)).Safe m := by
  have hbind : (x >>= fun a => pure (f a) : Exec _).run m = (r.map f, m') := by
    rw [run_bind, hrun]
    cases r <;> rfl
  have hafter : (x >>= fun a => pure (f a) : Exec _).after m = m' := by rw [after, hbind]
  refine ⟨hafter ▸ hchanges, hafter ▸ hm', fun v hv => ?_⟩
  rw [hbind] at hv
  rw [hafter]
  cases r with
  | error stop => cases hv
  | ok a => exact hvalue a v rfl (Except.ok.inj hv)

theorem safe_newScope (hm : m.WellFormed) {parent : Option ScopeId} (o : Origin)
    {bindings : List (String × Value)} (hparent : ∀ p, parent = some p → p < m.forest.size)
    (hbindings : ∀ b ∈ bindings, m.heap.Holds b.2) :
    (Exec.newScope parent o bindings >>= fun _ => pure none).Safe m :=
  safe_bind rfl (.newScope hparent o bindings) (hm.newScope parent o hbindings)
    fun _ _ _ h => by cases h

end Exec

theorem eq_ok_of_mapError {ε ε' α : Type} {f : ε → ε'} {r : Except ε α} {a : α}
    (h : r.mapError f = .ok a) : r = .ok a := by
  cases r with
  | error e => cases h
  | ok b =>
      cases h
      rfl

theorem Runs.safe {limited : Bool} {task : Task} {r r' : Except Stop Value} {x : Exec Value}
    (h : Runs limited task s m r m') (hm : m.WellFormed) (hnested : m.Nested)
    (htask : task.Confined (fun _ => True) s m) (hx : x.run m = (r', m'))
    (hr : ∀ v, r' = .ok v → r = .ok v) : (x >>= fun v => pure (some v)).Safe m := by
  have houtcome := h.confined hm.confined htask
  refine Exec.safe_bind hx (h.changes hnested fun hcall => (htask.scope hcall).2)
    houtcome.confined.wellFormed fun v w hv hw => ?_
  cases hw
  exact houtcome.value v (hr v hv)

theorem Action.safe {limits : Limits} {a : Action} (ha : a.Possible m) (hm : m.WellFormed)
    (hnested : m.Nested) : (a.exec limits).Safe m := by
  cases a with
  | newScope bindings => exact Exec.safe_newScope hm .host (fun p hp => by cases hp) ha
  -- the registered names are bindings like any others
  | newTop registry => exact Exec.safe_newScope hm .host (fun p hp => by cases hp) ha
  | child parent =>
      refine Exec.safe_newScope hm .host (fun p hp => ?_) fun _ hb => absurd hb List.not_mem_nil
      cases hp
      exact ha
  | define scope name value =>
      exact Exec.safe_bind rfl (.single .define)
        (hm.confined.define ha.2 scope name .host).wellFormed
        fun _ _ _ h => by cases h
  | assign scope name value =>
      have hrun := Exec.run_assign scope name value m
      split at hrun
      · exact Exec.safe_bind hrun (.single .set) (hm.confined.set ha.2 _ name).wellFormed
          fun _ _ _ h => by cases h
      · exact Exec.safe_bind hrun (.refl m) hm fun _ _ _ h => by cases h
  | newArray items =>
      have houtcome := Outcome.builtin hm.confined ha .array
      refine Exec.safe_bind rfl (.single .array) houtcome.confined.wellFormed fun v w hv hw => ?_
      cases hv
      cases hw
      exact houtcome.value _ rfl
  | run scope source =>
      have hrun := Program.run_eq limits scope source m
      split at hrun
      · exact Exec.safe_bind hrun (.refl m) hm fun _ _ h => by cases h
      · rename_i e he
        refine (runs_eval limits.rounds limits.depth e scope m).safe hm hnested ⟨fun e' he' => ?_,
          fun v hv => absurd hv List.not_mem_nil, fun _ => ⟨trivial, ha⟩⟩ hrun fun v hv => ?_
        · exact List.mem_singleton.mp he' ▸ Expr.isPlain_of_parse he
        · exact eq_ok_of_mapError hv
  | call callee arguments =>
      exact (runs_call limits.rounds limits.depth callee arguments 0 m).safe hm hnested
        ⟨fun e he => absurd he List.not_mem_nil, ha, fun h => by cases h⟩ rfl fun _ hv => hv

namespace Host

variable {limits : Limits} {h h' : Host}

theorem sound_start : start.Sound where
  wellFormed := ⟨fun _ _ hscope => (by cases hscope), fun _ _ hc => (by cases hc)⟩
  nested := ⟨fun _ _ hc => (by cases hc), fun _ _ hp => (by cases hp)⟩
  values v hv := absurd hv List.not_mem_nil

theorem Step.changes (hstep : Step limits h h') (hh : h.Sound) : h.machine.Changes h'.machine := by
  cases hstep with
  | act ha => exact (Action.safe ha hh.wellFormed hh.nested).changes

theorem Step.sound (hstep : Step limits h h') (hh : h.Sound) : h'.Sound := by
  have hchanges := hstep.changes hh
  cases hstep with
  | @act a ha =>
      have hsafe : (a.exec limits).Safe h.machine := Action.safe ha hh.wellFormed hh.nested
      refine ⟨hsafe.wellFormed, hchanges.nested hh.nested, fun v hv => ?_⟩
      rcases List.mem_append.mp hv with hv | hv
      · exact hchanges.keeps.holds v (hh.values v hv)
      · refine hsafe.holds v ?_
        rw [Option.mem_toList, Action.given] at hv
        split at hv
        · rename_i hrun
          rw [hrun, hv]
        · cases hv

/-- Whatever a host does, the machine changes step by step and the host stays sound. -/
theorem Steps.changes (hsteps : Steps limits h h') (hh : h.Sound) :
    h.machine.Changes h'.machine ∧ h'.Sound := by
  induction hsteps with
  | refl => exact ⟨.refl _, hh⟩
  | tail _ hlast ih => exact ⟨ih.1.trans (hlast.changes ih.2), hlast.sound ih.2⟩

theorem Steps.act (hsteps : Steps limits h h') {a : Action} (ha : a.Possible h'.machine) :
    Steps limits h (h'.act limits a) :=
  Relation.ReflTransGen.tail hsteps (.act ha)

end Host

/-- The scopes stay in order over whole sessions. From any state that a host can reach and over
anything that it can do from there, whether or not its actions stop: no scope gets another scope
around it or loses a name, and what was printed stays. In every state, the scope around another
one is older and there, so that the way outwards from a scope ends, and it is the one that names
are looked up on; and every function that is held anywhere was made in a scope that is there. -/
theorem scopes_in_order {limits : Limits} {h h' : Host} (hpast : Host.Steps limits .start h)
    (hfuture : Host.Steps limits h h') :
    (∀ i < h.machine.forest.size,
      i < h'.machine.forest.size ∧
      h'.machine.forest.parent? i = h.machine.forest.parent? i ∧
      h.machine.forest.names i <+: h'.machine.forest.names i) ∧
    (∃ text, h'.machine.output = h.machine.output ++ text) ∧
    (∀ i p, h.machine.forest.parent? i = some p → p < i ∧ i < h.machine.forest.size) ∧
    (∀ i < h.machine.forest.size,
      h.machine.forest.Outwards i (h.machine.forest.chain i) ∧
      (h.machine.forest.chain i).Pairwise (· > ·)) ∧
    ∀ id, h.Has (.closure id) →
      ∃ c, h.machine.heap.closures[id]? = some c ∧ c.scope < h.machine.forest.size := by
  obtain ⟨-, hsound⟩ := hpast.changes Host.sound_start
  have hkeeps := (hfuture.changes hsound).1.keeps
  refine ⟨fun i hi => ⟨Nat.lt_of_lt_of_le hi hkeeps.size, hkeeps.parent i hi, hkeeps.names i hi⟩,
    hkeeps.output, fun i p hp => ⟨hsound.nested.ordered i p hp, ?_⟩,
    fun i hi => Forest.outwards_chain hsound.nested.ordered hi, fun id hid => ?_⟩
  · exact Forest.lt_size_of_parent? hp
  · cases hsound.holds hid with
    | plain hplain => cases hplain
    | closure hc _ => exact ⟨_, hc, hsound.nested.closure _ _ hc⟩

/-- A host that has made a scope for a program, and run one there that stops after it has made a
function. -/
def functionHost : Host :=
  ((Host.start.act ⟨9, 9, 9⟩ (.newTop .standard)).act ⟨9, 9, 9⟩ (.child 0)).act ⟨9, 9, 9⟩
    (.run 1 "do(define(f, fun(x, define(y, x))), f())")

theorem steps_functionHost : Host.Steps ⟨9, 9, 9⟩ .start functionHost := by
  refine .act (.act (.act .refl ?_) ?_) ?_
  · exact fun _ hx => .plain (Registry.isPlain_of_mem_standard hx)
  · exact (by decide +kernel :
      0 < (Host.start.act ⟨9, 9, 9⟩ (.newTop .standard)).machine.forest.size)
  · exact (by decide +kernel : 1 < ((Host.start.act ⟨9, 9, 9⟩ (.newTop .standard)).act ⟨9, 9, 9⟩
      (.child 0)).machine.forest.size)

theorem get?_functionHost :
    functionHost.machine.forest.get? 1 = some ⟨some 0, [⟨"f", .source, .closure 0⟩]⟩ := by
  decide +kernel

theorem scopes_in_order_functionHost :
    Host.Steps ⟨9, 9, 9⟩ .start functionHost ∧ functionHost.Has (.closure 0) ∧
    ∃ h', Host.Steps ⟨9, 9, 9⟩ functionHost h' ∧
      h'.machine.forest.parent? 1 = some 0 ∧ ["f"] <+: h'.machine.forest.names 1 ∧
      ∃ c, functionHost.machine.heap.closures[0]? = some c ∧
        c.scope < functionHost.machine.forest.size := by
  have hhas : functionHost.Has (.closure 0) := .bound get?_functionHost List.mem_cons_self
  have hsound := (steps_functionHost.changes Host.sound_start).2
  have hcall : Host.Steps ⟨9, 9, 9⟩ functionHost
      (functionHost.act ⟨9, 9, 9⟩ (.call (.closure 0) [.bool true])) := by
    refine .act .refl fun v hv => ?_
    rcases List.mem_cons.mp hv with rfl | hv
    · exact hsound.holds hhas
    · rw [List.mem_singleton.mp hv]
      exact .plain trivial
  obtain ⟨hkeeps, -, -, -, hclosure⟩ := scopes_in_order steps_functionHost hcall
  obtain ⟨-, hparent, hnames⟩ := hkeeps 1 (by decide +kernel)
  refine ⟨steps_functionHost, hhas, _, hcall, ?_, ?_, hclosure 0 hhas⟩
  · rw [hparent, Forest.parent?, get?_functionHost]
    rfl
  · rw [Forest.names, get?_functionHost] at hnames
    exact hnames

end Egg
