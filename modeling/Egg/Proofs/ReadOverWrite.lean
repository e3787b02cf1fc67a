import Egg.Proofs.ScopeForest

namespace Egg

namespace Scope

theorem mem_names_iff {s : Scope} {x : String} : x ∈ s.names ↔ (s.get? x).isSome = true := by
  rw [get?_isSome]
  simp [names, binds]

theorem get?_set (s : Scope) (x y : String) (v : Value) :
    (s.set x v).get? y = if y = x then (s.get? x).map fun _ => v else s.get? y := by
  have hfind : (s.set x v).bindings.find? (·.name = y) =
      (s.bindings.find? (·.name = y)).map fun b =>
        if b.name = x then { b with value := v } else b := by
    rw [set, List.find?_map]
    congr 2
    funext b
    simp only [Function.comp_apply]
    split <;> rfl
  have hname : ∀ b, s.bindings.find? (·.name = y) = some b → b.name = y := by
    intro b hb
    simpa using List.find?_some hb
  rw [get?, hfind, get?, get?, Option.map_map]
  by_cases hy : y = x
  · subst hy
    rw [if_pos rfl, Option.map_map]
    refine Option.map_congr fun b hb => ?_
    simp [hname b hb]
  · rw [if_neg hy]
    refine Option.map_congr fun b hb => ?_
    simp [hname b hb, hy]

theorem get?_put (s : Scope) (x y : String) (o : Origin) (v : Value) :
    (s.put x o v).get? y = if y = x then some v else s.get? y := by
  rw [put]
  split
  · rename_i hbinds
    rw [← get?_isSome, Option.isSome_iff_exists] at hbinds
    obtain ⟨w, hw⟩ := hbinds
    rw [get?_set, hw]
    rfl
  · rename_i hbinds
    have hnone : s.bindings.find? (·.name = x) = none := by
      rw [← get?_isSome] at hbinds
      simpa [get?] using hbinds
    rw [get?, List.find?_append, get?]
    by_cases hy : y = x
    · subst hy
      simp [hnone]
    · simp [hy, Ne.symm hy]

end Scope

namespace Forest

/-- The value that the scope with a number itself binds a name to. -/
def own? (f : Forest) (i : ScopeId) (x : String) : Option Value :=
  (f.get? i).bind (·.get? x)

section Own

variable {f : Forest} {e i : ScopeId} {x y : String}

theorem mem_names_iff : x ∈ f.names i ↔ (f.own? i x).isSome = true := by
  rw [names, own?]
  cases f.get? i with
  | none => simp
  | some s => exact s.mem_names_iff

theorem own?_set (f : Forest) (e i : ScopeId) (x y : String) (v : Value) :
    (f.set e x v).own? i y =
      if i = e ∧ y = x then (f.own? i x).map fun _ => v else f.own? i y := by
  by_cases hi : i = e
  · subst hi
    cases hscope : f.get? i with
    | none => simp [own?, get?_set, hscope]
    | some s => simp [own?, get?_set, hscope, s.get?_set]
  · rw [own?, get?_set_of_ne hi, if_neg fun h => hi h.1, own?]

theorem own?_define (he : e < f.size) (i : ScopeId) (x y : String) (o : Origin) (v : Value) :
    (f.define e x o v).own? i y = if i = e ∧ y = x then some v else f.own? i y := by
  by_cases hi : i = e
  · subst hi
    obtain ⟨s, hscope⟩ : ∃ s, f.get? i = some s := ⟨_, Array.getElem?_eq_getElem he⟩
    simp [own?, get?_define, hscope, s.get?_put]
  · rw [own?, get?_define_of_ne hi, if_neg fun h => hi h.1, own?]

theorem mem_names_define (he : e < f.size) (i : ScopeId) (x y : String) (o : Origin) (v : Value) :
    y ∈ (f.define e x o v).names i ↔ i = e ∧ y = x ∨ y ∈ f.names i := by
  rw [mem_names_iff, mem_names_iff, own?_define he]
  by_cases h : i = e ∧ y = x
  · simp [h]
  · simp [h]

theorem any_binds_eq (f : Forest) (i : ScopeId) (x : String) :
    (f.get? i).any (·.binds x) = (f.own? i x).isSome := by
  rw [own?]
  cases f.get? i with
  | none => rfl
  | some s => exact (s.get?_isSome x).symm

theorem lookup?_eq (f : Forest) (i : ScopeId) (x : String) :
    f.lookup? i x = (f.owner? i x).bind (f.own? · x) := by
  rw [lookup?, owner?]
  induction f.chain i with
  | nil => rfl
  | cons j chain ih =>
      rw [List.findSome?_cons, List.find?_cons, any_binds_eq, ih,
        show (f.get? j).bind (·.get? x) = f.own? j x from rfl]
      cases hown : f.own? j x with
      | none => rfl
      | some v => exact hown.symm

end Own

/-- The way outwards from a scope comes to the scope `j` before it comes to any other one that
binds the name. -/
inductive Sees (f : Forest) (x : String) (j : ScopeId) : ScopeId → Prop where
  | here : Sees f x j j
  | outwards {i p : ScopeId} :
      x ∉ f.names i → f.parent? i = some p → Sees f x j p → Sees f x j i

section Owner

variable {f : Forest} {e i j : ScopeId} {x y : String} {o : Origin} {v : Value}

theorem owner?_eq (hf : f.Ordered) (i : ScopeId) (x : String) :
    f.owner? i x = if x ∈ f.names i then some i else (f.parent? i).bind (f.owner? · x) := by
  by_cases hi : i < f.size
  · rw [owner?, chain_eq hf hi, List.find?_cons, any_binds_eq]
    by_cases hx : x ∈ f.names i
    · rw [if_pos hx, mem_names_iff.mp hx]
    · rw [if_neg hx, Bool.eq_false_iff.mpr (mt mem_names_iff.mpr hx)]
      cases f.parent? i <;> rfl
  · have hscope : f.get? i = none := Array.getElem?_eq_none (Nat.le_of_not_lt hi)
    rw [owner?, chain, parent?, names, hscope]
    rfl

theorem owner?_eq_some_iff (hf : f.Ordered) :
    f.owner? i x = some j ↔ f.Sees x j i ∧ x ∈ f.names j := by
  constructor
  · intro h
    induction i using Nat.strongRecOn with
    | ind i ih =>
        rw [owner?_eq hf] at h
        split at h
        · rename_i hx
          cases h
          exact ⟨.here, hx⟩
        · rename_i hx
          obtain ⟨p, hp, h⟩ := Option.bind_eq_some_iff.mp h
          obtain ⟨hsees, hj⟩ := ih p (hf i p hp) h
          exact ⟨.outwards hx hp hsees, hj⟩
  · rintro ⟨hsees, hj⟩
    induction hsees with
    | here => rw [owner?_eq hf, if_pos hj]
    | outwards hx hp _ ih => rw [owner?_eq hf, if_neg hx, hp, Option.bind_some, ih]

theorem exists_own?_of_owner? (hf : f.Ordered) (h : f.owner? i x = some j) :
    ∃ w, f.own? j x = some w :=
  Option.isSome_iff_exists.mp (mem_names_iff.mp ((owner?_eq_some_iff hf).mp h).2)

theorem Ordered.set (hf : f.Ordered) (e : ScopeId) (x : String) (v : Value) :
    (f.set e x v).Ordered :=
  fun i p hp => hf i p (by simpa using hp)

theorem Ordered.define (hf : f.Ordered) (e : ScopeId) (x : String) (o : Origin) (v : Value) :
    (f.define e x o v).Ordered :=
  fun i p hp => hf i p (by simpa using hp)

/-- What is seen in a forest is seen in any other one with the same scopes around each scope and
no more scopes that bind the name. -/
theorem Sees.mono {f' : Forest} (h : f.Sees x j i) (hparent : ∀ i, f'.parent? i = f.parent? i)
    (hnames : ∀ i, x ∈ f'.names i → x ∈ f.names i) : f'.Sees x j i := by
  induction h with
  | here => exact .here
  | outwards hx hp _ ih => exact .outwards (mt (hnames _) hx) (by rw [hparent, hp]) ih

theorem owner?_congr {f' : Forest} (hf : f.Ordered) (hf' : f'.Ordered)
    (hparent : ∀ k, f'.parent? k = f.parent? k) (hnames : ∀ k, x ∈ f'.names k ↔ x ∈ f.names k) :
    f'.owner? i x = f.owner? i x := by
  refine Option.ext fun j => ?_
  rw [owner?_eq_some_iff hf', owner?_eq_some_iff hf, hnames]
  constructor
  · rintro ⟨hsees, hj⟩
    exact ⟨hsees.mono (fun k => (hparent k).symm) fun k => (hnames k).mpr, hj⟩
  · rintro ⟨hsees, hj⟩
    exact ⟨hsees.mono hparent fun k => (hnames k).mp, hj⟩

theorem owner?_set (hf : f.Ordered) (e i : ScopeId) (x y : String) (v : Value) :
    (f.set e x v).owner? i y = f.owner? i y :=
  owner?_congr hf (hf.set e x v) (by simp) (by simp)

theorem lookup?_set (hf : f.Ordered) (e i : ScopeId) (x y : String) (v : Value) :
    (f.set e x v).lookup? i y =
      if y = x ∧ f.owner? i x = some e then some v else f.lookup? i y := by
  rw [lookup?_eq, owner?_set hf, lookup?_eq]
  cases howner : f.owner? i y with
  | none =>
      rw [if_neg]
      · rfl
      · rintro ⟨rfl, h⟩
        rw [howner] at h
        cases h
  | some j =>
      rw [Option.bind_some, Option.bind_some, own?_set]
      by_cases hy : y = x
      · subst hy
        obtain ⟨w, hw⟩ := exists_own?_of_owner? hf howner
        simp [howner, hw]
      · simp [hy]

theorem Sees.of_define (h : (f.define e x o v).Sees x j i) (he : e < f.size) : f.Sees x j i := by
  refine h.mono (by simp) fun k hk => ?_
  exact (mem_names_define he k x x o v).mpr (.inr hk)

theorem sees_define_iff (he : e < f.size) :
    (f.define e x o v).Sees x e i ↔ f.Sees x e i := by
  constructor
  · intro h
    exact h.of_define he
  · intro h
    induction h with
    | here => exact .here
    | @outwards k p hx hp _ ih =>
        by_cases hk : k = e
        · exact hk ▸ .here
        · refine .outwards (fun hmem => ?_) (by simpa using hp) ih
          exact ((mem_names_define he k x x o v).mp hmem).elim (fun h => hk h.1) hx

/-- Binding a name takes the scopes from which the new binding is the first to be met. -/
theorem owner?_define_iff (hf : f.Ordered) (he : e < f.size) :
    (f.define e x o v).owner? i x = some e ↔ f.Sees x e i := by
  rw [owner?_eq_some_iff (hf.define e x o v), sees_define_iff he]
  exact and_iff_left ((mem_names_define he e x x o v).mpr (.inl ⟨rfl, rfl⟩))

theorem Sees.define_of_not_sees (h : f.Sees x j i) (he : e < f.size) (hnot : ¬ f.Sees x e i) :
    (f.define e x o v).Sees x j i := by
  induction h with
  | here => exact .here
  | @outwards k p hx hp _ ih =>
      refine .outwards (fun hmem => ?_) (by simpa using hp) (ih fun h => hnot (.outwards hx hp h))
      rcases (mem_names_define he k x x o v).mp hmem with ⟨rfl, -⟩ | hmem
      · exact hnot .here
      · exact hx hmem

theorem owner?_define_of_not_sees (hf : f.Ordered) (he : e < f.size) (h : y = x → ¬ f.Sees x e i) :
    (f.define e x o v).owner? i y = f.owner? i y := by
  by_cases hy : y = x
  · subst hy
    have hnot := h rfl
    refine Option.ext fun j => ?_
    rw [owner?_eq_some_iff (hf.define e y o v), owner?_eq_some_iff hf, mem_names_define he]
    constructor
    · rintro ⟨hsees, hj⟩
      refine ⟨hsees.of_define he, hj.resolve_left ?_⟩
      rintro ⟨rfl, -⟩
      exact hnot (hsees.of_define he)
    · rintro ⟨hsees, hj⟩
      exact ⟨hsees.define_of_not_sees he hnot, .inr hj⟩
  · refine owner?_congr hf (hf.define e x o v) (by simp) fun k => ?_
    rw [mem_names_define he]
    simp [hy]

theorem lookup?_define_of_sees (hf : f.Ordered) (he : e < f.size) (h : f.Sees x e i) :
    (f.define e x o v).lookup? i x = some v := by
  rw [lookup?_eq, (owner?_define_iff hf he).mpr h, Option.bind_some, own?_define he]
  simp

theorem lookup?_define_of_not_sees (hf : f.Ordered) (he : e < f.size) (h : y = x → ¬ f.Sees x e i) :
    (f.define e x o v).lookup? i y = f.lookup? i y := by
  rw [lookup?_eq, owner?_define_of_not_sees hf he h, lookup?_eq]
  cases howner : f.owner? i y with
  | none => rfl
  | some j =>
      rw [Option.bind_some, Option.bind_some, own?_define he, if_neg]
      rintro ⟨rfl, rfl⟩
      exact h rfl ((owner?_eq_some_iff hf).mp howner).1

end Owner

end Forest

theorem Exec.lookup_congr {m m' : Machine} {i : ScopeId} {x : String}
    (h : m'.forest.lookup? i x = m.forest.lookup? i x) :
    ((Exec.lookup i x).run m').1 = ((Exec.lookup i x).run m).1 := by
  rw [run_lookup, run_lookup, h]
  cases m.forest.lookup? i x <;> rfl

theorem Exec.lookup_eq_ok {m : Machine} {i : ScopeId} {x : String} {v : Value}
    (h : m.forest.lookup? i x = some v) : (Exec.lookup i x).run m = (.ok v, m) := by
  rw [run_lookup, h]

/-- Reading over writing. A name belongs to the nearest scope outwards that binds it. Looking it
up gives what that scope binds it to, and fails if there is none. Assigning to it changes for no
name which scope it belongs to, and is seen exactly where the name belongs to the same scope; if
there is none, it is an error about the name and nothing changes. Binding it takes the scopes
whose way outwards comes to the new binding first, is seen exactly from there, and changes no
other lookup. -/
theorem read_over_write {m : Machine} (hforest : m.forest.Ordered) (e : ScopeId) (x : String)
    (v : Value) :
    (∀ o, m.forest.owner? e x = some o ↔ m.forest.Sees x o e ∧ x ∈ m.forest.names o) ∧
    (∀ o, m.forest.owner? e x = some o →
      ∃ w, m.forest.own? o x = some w ∧ (Exec.lookup e x).run m = (.ok w, m)) ∧
    (m.forest.owner? e x = none →
      (Exec.lookup e x).run m = (.error (.raised ⟨.undefined x, none⟩), m)) ∧
    (∀ o, m.forest.owner? e x = some o →
      ∃ m', (Exec.assign e x v).run m = (.ok (), m') ∧
        (∀ i y, m'.forest.owner? i y = m.forest.owner? i y) ∧
        ∀ i y, ((Exec.lookup i y).run m').1 =
          if y = x ∧ m.forest.owner? i x = some o then .ok v else ((Exec.lookup i y).run m).1) ∧
    (m.forest.owner? e x = none →
      ∃ cause, (Exec.assign e x v).run m = (.error (.raised ⟨cause, none⟩), m) ∧
        cause.kind = .reference ∧ cause.name? = some x) ∧
    (e < m.forest.size → ∀ origin,
      ∃ m', (Exec.define e x origin v).run m = (.ok (), m') ∧
        (∀ i, m'.forest.owner? i x = some e ↔ m.forest.Sees x e i) ∧
        (∀ i, m.forest.Sees x e i → ((Exec.lookup i x).run m').1 = .ok v) ∧
        ∀ i y, (y = x → ¬ m.forest.Sees x e i) →
          ((Exec.lookup i y).run m').1 = ((Exec.lookup i y).run m).1) := by
  refine ⟨fun o => Forest.owner?_eq_some_iff hforest, fun o ho => ?_, fun hnone => ?_,
    fun o ho => ?_, fun hnone => ?_, fun he origin => ?_⟩
  · obtain ⟨w, hw⟩ := Forest.exists_own?_of_owner? hforest ho
    exact ⟨w, hw, Exec.lookup_eq_ok (by rw [Forest.lookup?_eq, ho, Option.bind_some, hw])⟩
  · rw [Exec.run_lookup, Forest.lookup?_eq, hnone]
    rfl
  · refine ⟨m.set o x v, by rw [Exec.run_assign, ho], ?_, fun i y => ?_⟩
    · exact fun i y => Forest.owner?_set hforest o i x y v
    · have hlookup := Forest.lookup?_set hforest o i x y v
      split at hlookup
      · rename_i hseen
        rw [if_pos hseen, Exec.lookup_eq_ok (m := m.set o x v) hlookup]
      · rename_i hunseen
        rw [if_neg hunseen]
        exact Exec.lookup_congr hlookup
  · exact ⟨.unassignable x, by rw [Exec.run_assign, hnone], rfl, rfl⟩
  · refine ⟨m.define e x origin v, rfl, fun i => Forest.owner?_define_iff hforest he,
      fun i hi => ?_, fun i y hy => ?_⟩
    · have hlookup := Forest.lookup?_define_of_sees (o := origin) (v := v) hforest he hi
      rw [Exec.lookup_eq_ok (m := m.define e x origin v) hlookup]
    · exact Exec.lookup_congr (Forest.lookup?_define_of_not_sees hforest he hy)

/-- An outermost scope that binds a name, a scope two levels inside of it, and another one inside
of it. -/
def siblingScopes : Machine :=
  ⟨⟨#[⟨none, [⟨"n", .host, .bool false⟩]⟩, ⟨some 0, []⟩, ⟨some 1, []⟩, ⟨some 0, []⟩]⟩, .empty, ""⟩

theorem ordered_siblingScopes : siblingScopes.forest.Ordered := by
  have hall : ∀ i < 4, ∀ p ∈ siblingScopes.forest.parent? i, p < i := by decide
  intro i p hp
  exact hall i (Forest.lt_size_of_parent? hp) p hp

theorem read_over_write_siblingScopes :
    siblingScopes.forest.Ordered ∧ siblingScopes.forest.owner? 2 "n" = some 0 ∧
    1 < siblingScopes.forest.size ∧
    (∃ m', (Exec.assign 2 "n" (.bool true)).run siblingScopes = (.ok (), m') ∧
      ((Exec.lookup 3 "n").run m').1 = .ok (.bool true)) ∧
    ∃ m', (Exec.define 1 "n" .host (.bool true)).run siblingScopes = (.ok (), m') ∧
      ((Exec.lookup 2 "n").run m').1 = .ok (.bool true) ∧
      ((Exec.lookup 3 "n").run m').1 = ((Exec.lookup 3 "n").run siblingScopes).1 := by
  have hforest := ordered_siblingScopes
  have howner : siblingScopes.forest.owner? 2 "n" = some 0 := by decide +kernel
  have hsibling : siblingScopes.forest.owner? 3 "n" = some 0 := by decide +kernel
  have hsize : 1 < siblingScopes.forest.size := by decide
  have hinner : siblingScopes.forest.Sees "n" 1 2 := .outwards (by decide) (by decide) .here
  have houter : ¬ siblingScopes.forest.Sees "n" 1 3 := by
    intro h
    cases h with
    | outwards _ hp h =>
        obtain rfl := Option.some.inj hp
        cases h with
        | outwards hx _ _ => exact hx (by decide)
  obtain ⟨-, -, -, hassign, -, -⟩ := read_over_write hforest 2 "n" (.bool true)
  obtain ⟨m₁, hrun₁, -, hseen₁⟩ := hassign 0 howner
  obtain ⟨-, -, -, -, -, hdefine⟩ := read_over_write hforest 1 "n" (.bool true)
  obtain ⟨m₂, hrun₂, -, hseen₂, hkept₂⟩ := hdefine hsize .host
  refine ⟨hforest, howner, hsize, ⟨m₁, hrun₁, ?_⟩, m₂, hrun₂, hseen₂ 2 hinner, ?_⟩
  · rw [hseen₁, if_pos ⟨rfl, hsibling⟩]
  · exact hkept₂ 3 "n" fun _ => houter

end Egg
