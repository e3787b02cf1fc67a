import Egg.Proofs.GrammarReader
import Egg.Proofs.MachineGrowth

/-!
Regions of the machine. A region is a set of scopes that values do not lead out of: it holds the
scope around each of its scopes, and whatever its scopes bind captures only scopes of the region.
All that a program can do step by step, from inside of a region, keeps it a region.
-/

namespace Egg

/-- An expression whose literals refer to nothing on the heap. -/
inductive Expr.IsPlain : Expr → Prop where
  | literal {v : Value} {p : Option Position} : v.IsPlain → IsPlain (.literal v p)
  | name {x : String} {o : Origin} {p : Option Position} : IsPlain (.name x o p)
  | apply {f : Expr} {es : List Expr} {p : Option Position} :
      IsPlain f → (∀ e ∈ es, IsPlain e) → IsPlain (.apply f es p)
  | foreign {thing : Foreign} : IsPlain (.foreign thing)

theorem Token.isPlain_of_leaf? {t : Token} {e : Expr} (h : t.leaf? = some e) : e.IsPlain := by
  unfold Token.leaf? at h
  split at h
  · cases h
    exact .literal trivial
  · cases h
    exact .literal trivial
  · cases h
    exact .name
  · cases h

theorem Expr.isPlain_of_parse {limit : Nat} {source : String} {e : Expr}
    (h : Expr.parse limit source = .ok e) : e.IsPlain :=
  (Expr.derives_of_parse h).all (P := Expr.IsPlain) (fun _ _ _ => Token.isPlain_of_leaf?)
    fun _ _ => .apply

namespace Heap

/-- The scopes that a value captures: those in which the closures were made that it is or holds.
-/
inductive Captures (heap : Heap) : Value → ScopeId → Prop where
  | closure {id : ClosureId} {c : Closure} :
      heap.closures[id]? = some c → Captures heap (.closure id) c.scope
  | item {id : ArrayId} {items : List Value} {v : Value} {i : ScopeId} :
      heap.arrays[id]? = some items → v ∈ items → Captures heap v i → Captures heap (.array id) i

/-- A value that is wholly on the heap and captures only scopes of a region. -/
inductive Within (region : ScopeId → Prop) (heap : Heap) : Value → Prop where
  | plain {v : Value} : v.IsPlain → Within region heap v
  | closure {id : ClosureId} {c : Closure} :
      heap.closures[id]? = some c → region c.scope → Within region heap (.closure id)
  | array {id : ArrayId} {items : List Value} :
      heap.arrays[id]? = some items → (∀ v ∈ items, Within region heap v) →
      Within region heap (.array id)

/-- A value that is wholly on the heap. -/
def Holds (heap : Heap) (v : Value) : Prop :=
  heap.Within (fun _ => True) v

namespace Within

variable {region : ScopeId → Prop} {heap heap' : Heap} {v : Value}

theorem mono (h : heap.Within region v)
    (harrays : ∀ (id : ArrayId) items,
      heap.arrays[id]? = some items → heap'.arrays[id]? = some items)
    (hclosures : ∀ (id : ClosureId) c, heap.closures[id]? = some c → heap'.closures[id]? = some c) :
    heap'.Within region v := by
  induction h with
  | plain hv => exact .plain hv
  | closure hc hscope => exact .closure (hclosures _ _ hc) hscope
  | array hitems _ ih => exact .array (harrays _ _ hitems) ih

theorem scope (h : heap.Within region v) {i : ScopeId} (hi : heap.Captures v i) : region i := by
  induction hi with
  | closure hc =>
      cases h with
      | plain hv => cases hv
      | closure hc' hscope =>
          cases hc.symm.trans hc'
          exact hscope
  | item hitems hv _ ih =>
      cases h with
      | plain hv => cases hv
      | array hitems' hall =>
          cases hitems.symm.trans hitems'
          exact ih (hall _ hv)

theorem item {id : ArrayId} {items : List Value} (h : heap.Within region (.array id))
    (hitems : heap.arrays[id]? = some items) (hv : v ∈ items) : heap.Within region v := by
  cases h with
  | plain hplain => cases hplain
  | array hitems' hall =>
      cases hitems.symm.trans hitems'
      exact hall v hv

end Within

theorem Holds.within {region : ScopeId → Prop} {heap : Heap} {v : Value} (h : heap.Holds v)
    (hregion : ∀ i, heap.Captures v i → region i) : heap.Within region v := by
  unfold Holds at h
  induction h with
  | plain hv => exact .plain hv
  | closure hc _ => exact .closure hc (hregion _ (.closure hc))
  | array hitems _ ih =>
      exact .array hitems fun v hv => ih v hv fun i hi => hregion i (.item hitems hv hi)

end Heap

namespace Forest

theorem mem_region_of_mem_chain {f : Forest} {region : ScopeId → Prop}
    (hparent : ∀ i scope p, region i → f.get? i = some scope → scope.parent = some p → region p)
    {s i : ScopeId} (hs : region s) (hi : i ∈ f.chain s) : region i := by
  -- the chain goes on only to an older scope
  induction s using Nat.strongRecOn with
  | ind s ih =>
      rw [chain] at hi
      split at hi
      · cases hi
      · rename_i scope hscope
        rcases List.mem_cons.mp hi with rfl | hi
        · exact hs
        · split at hi
          · cases hi
          · rename_i p hp
            split at hi
            · rename_i hlt
              exact ih p hlt (hparent s scope p hs hscope hp) hi
            · cases hi

theorem owner?_mem_chain {f : Forest} {s i : ScopeId} {x : String} (h : f.owner? s x = some i) :
    i ∈ f.chain s :=
  List.mem_of_find?_eq_some h

theorem exists_of_lookup? {f : Forest} {s : ScopeId} {x : String} {v : Value}
    (h : f.lookup? s x = some v) :
    ∃ i ∈ f.chain s, ∃ scope, f.get? i = some scope ∧
      ∃ b ∈ scope.bindings, b.name = x ∧ b.value = v := by
  obtain ⟨i, hi, hv⟩ := List.exists_of_findSome?_eq_some h
  obtain ⟨scope, hscope, hget⟩ := Option.bind_eq_some_iff.mp hv
  obtain ⟨b, hb, rfl⟩ := Option.map_eq_some_iff.mp hget
  have hname := List.find?_some hb
  exact ⟨i, hi, scope, hscope, b, List.mem_of_find?_eq_some hb, of_decide_eq_true hname, rfl⟩

end Forest

namespace Scope

@[simp] theorem parent_set (s : Scope) (x : String) (v : Value) :
    (s.set x v).parent = s.parent := rfl

@[simp] theorem parent_put (s : Scope) (x : String) (o : Origin) (v : Value) :
    (s.put x o v).parent = s.parent := by
  rw [put]
  split <;> rfl

theorem eq_or_mem_of_mem_set {s : Scope} {x : String} {v : Value} {b : Binding}
    (h : b ∈ (s.set x v).bindings) : b.name = x ∧ b.value = v ∨ b ∈ s.bindings := by
  obtain ⟨b', hb', rfl⟩ := List.mem_map.mp h
  split
  · rename_i hname
    exact .inl ⟨hname, rfl⟩
  · exact .inr hb'

theorem eq_or_mem_of_mem_put {s : Scope} {x : String} {o : Origin} {v : Value} {b : Binding}
    (h : b ∈ (s.put x o v).bindings) : b.name = x ∧ b.value = v ∨ b ∈ s.bindings := by
  rw [put] at h
  split at h
  · exact eq_or_mem_of_mem_set h
  · rcases List.mem_append.mp h with h | h
    · exact .inr h
    · rw [List.mem_singleton.mp h]
      exact .inl ⟨rfl, rfl⟩

end Scope

namespace Machine

/-- A machine on which every bound value is wholly on the heap, and every closure was made in a
scope that is there, from an expression read from source text. -/
structure WellFormed (m : Machine) : Prop where
  value : ∀ i scope, m.forest.get? i = some scope → ∀ b ∈ scope.bindings, m.heap.Holds b.value
  closure : ∀ (id : ClosureId) c, m.heap.closures[id]? = some c →
    c.scope < m.forest.size ∧ c.body.IsPlain

/-- A region of a machine. It also holds all scopes that are not there yet. -/
structure Confined (region : ScopeId → Prop) (m : Machine) : Prop where
  fresh : ∀ i, m.forest.size ≤ i → region i
  parent : ∀ i scope p, region i → m.forest.get? i = some scope → scope.parent = some p → region p
  value : ∀ i scope, region i → m.forest.get? i = some scope →
    ∀ b ∈ scope.bindings, m.heap.Within region b.value
  closure : ∀ (id : ClosureId) c, m.heap.closures[id]? = some c →
    c.scope < m.forest.size ∧ c.body.IsPlain

variable {region : ScopeId → Prop} {m m' : Machine} {s : ScopeId} {v : Value}

theorem Grows.within (h : m.Grows s m') (hv : m.heap.Within region v) : m'.heap.Within region v :=
  hv.mono h.arrays h.closures

namespace Confined

theorem of_mem_chain (hm : m.Confined region) (hs : region s) {i : ScopeId}
    (hi : i ∈ m.forest.chain s) : region i :=
  Forest.mem_region_of_mem_chain hm.parent hs hi

theorem within_of_lookup? (hm : m.Confined region) (hs : region s) {x : String}
    (h : m.forest.lookup? s x = some v) : m.heap.Within region v := by
  obtain ⟨i, hi, scope, hscope, b, hb, -, rfl⟩ := Forest.exists_of_lookup? h
  exact hm.value i scope (hm.of_mem_chain hs hi) hscope b hb

theorem of_forest (hm : m.Confined region) {forest : Forest} (hsize : forest.size = m.forest.size)
    (hforest : ∀ i scope', forest.get? i = some scope' → ∃ scope, m.forest.get? i = some scope ∧
      scope'.parent = scope.parent ∧
      ∀ b ∈ scope'.bindings, m.heap.Within region b.value ∨ b ∈ scope.bindings) :
    { m with forest := forest }.Confined region where
  fresh i hi := hm.fresh i (hsize ▸ hi)
  parent i scope' p hi hscope' hp := by
    obtain ⟨scope, hscope, hparent, -⟩ := hforest i scope' hscope'
    exact hm.parent i scope p hi hscope (hparent ▸ hp)
  value i scope' hi hscope' b hb := by
    obtain ⟨scope, hscope, -, hbindings⟩ := hforest i scope' hscope'
    rcases hbindings b hb with hv | hb
    · exact hv
    · exact hm.value i scope hi hscope b hb
  closure id c hc := ⟨hsize ▸ (hm.closure id c hc).1, (hm.closure id c hc).2⟩

theorem define (hm : m.Confined region) (hv : m.heap.Within region v) (s : ScopeId) (x : String)
    (o : Origin) : (m.define s x o v).Confined region := by
  refine hm.of_forest (Forest.size_define _ _ _ _ _) fun i scope' h => ?_
  rw [Forest.get?_define] at h
  split at h
  · obtain ⟨scope, hscope, rfl⟩ := Option.map_eq_some_iff.mp h
    refine ⟨scope, hscope, Scope.parent_put scope x o v, fun b hb => ?_⟩
    rcases Scope.eq_or_mem_of_mem_put hb with ⟨-, rfl⟩ | hb
    · exact .inl hv
    · exact .inr hb
  · exact ⟨scope', h, rfl, fun b hb => .inr hb⟩

theorem set (hm : m.Confined region) (hv : m.heap.Within region v) (s : ScopeId) (x : String) :
    (m.set s x v).Confined region := by
  refine hm.of_forest (Forest.size_set _ _ _ _) fun i scope' h => ?_
  rw [Forest.get?_set] at h
  split at h
  · obtain ⟨scope, hscope, rfl⟩ := Option.map_eq_some_iff.mp h
    refine ⟨scope, hscope, Scope.parent_set scope x v, fun b hb => ?_⟩
    rcases Scope.eq_or_mem_of_mem_set hb with ⟨-, rfl⟩ | hb
    · exact .inl hv
    · exact .inr hb
  · exact ⟨scope', h, rfl, fun b hb => .inr hb⟩

theorem defineAll (hm : m.Confined region) (s : ScopeId) (o : Origin)
    {bindings : List (String × Value)} (h : ∀ b ∈ bindings, m.heap.Within region b.2) :
    { m with forest := m.forest.defineAll s o bindings }.Confined region := by
  induction bindings generalizing m with
  | nil => exact hm
  | cons b bindings ih =>
      obtain ⟨hb, hbindings⟩ := List.forall_mem_cons.mp h
      exact ih (hm.define hb s b.1 o) hbindings

theorem push (hm : m.Confined region) {p : ScopeId} (hp : region p) :
    { m with forest := m.forest.push ⟨some p, []⟩ }.Confined region where
  fresh i hi := hm.fresh i (by
    rw [Forest.size_push] at hi
    omega)
  parent i scope q hi hscope hq := by
    rw [Forest.get?_push] at hscope
    split at hscope
    · cases hscope
      cases hq
      exact hp
    · exact hm.parent i scope q hi hscope hq
  value i scope hi hscope b hb := by
    rw [Forest.get?_push] at hscope
    split at hscope
    · cases hscope
      cases hb
    · exact hm.value i scope hi hscope b hb
  closure id c hc := by
    obtain ⟨hscope, hbody⟩ := hm.closure id c hc
    refine ⟨?_, hbody⟩
    rw [Forest.size_push]
    exact Nat.lt_succ_of_lt hscope

theorem enter (hm : m.Confined region) {c : Closure} (hc : region c.scope) {arguments : List Value}
    (harguments : ∀ v ∈ arguments, m.heap.Within region v) :
    (m.enter c arguments).Confined region := by
  refine (hm.push hc).defineAll m.forest.size .source fun b hb => ?_
  exact harguments b.2 (List.of_mem_zip hb).2

theorem addClosure (hm : m.Confined region) {c : Closure} (hscope : c.scope < m.forest.size)
    (hbody : c.body.IsPlain) : (m.addClosure c).Confined region where
  fresh := hm.fresh
  parent := hm.parent
  value i scope hi hscope b hb :=
    (grows_addClosure i m c).within (hm.value i scope hi hscope b hb)
  closure id c' hc' := by
    rw [Machine.addClosure, Array.getElem?_push] at hc'
    split at hc'
    · cases hc'
      exact ⟨hscope, hbody⟩
    · exact hm.closure id c' hc'

end Confined

end Machine

end Egg
