import Egg.Proofs.FirstBadToken
import Egg.Proofs.MoreInput
import Egg.Proofs.PrintedTerm
import Egg.Proofs.ProgramNode

namespace Egg

namespace Expr

mutual

/-- The literals and names of an expression from left to right, those of an operator before those
of its arguments. -/
def leaves : Expr → List Expr
  | .apply operator arguments _ => operator.leaves ++ leavesAll arguments
  | e => [e]

def leavesAll : List Expr → List Expr
  | [] => []
  | e :: es => e.leaves ++ leavesAll es

end

theorem exists_leaves_eq_cons : ∀ e : Expr, ∃ more, e.leaves = e.leaf :: more
  | .literal .. | .name .. | .foreign _ => ⟨[], rfl⟩
  | .apply operator arguments _ => by
      obtain ⟨more, hmore⟩ := operator.exists_leaves_eq_cons
      exact ⟨more ++ leavesAll arguments, by rw [leaves, hmore, leaf, List.cons_append]⟩

end Expr

theorem Token.leaves_of_leaf? {t : Token} {f : Expr} (h : t.leaf? = some f) :
    f.leaves = [f] ∧ f.position = some t.start := by
  rw [leaf?] at h
  split at h <;> cases h <;> exact ⟨rfl, rfl⟩

theorem Token.leaf?_of_isAtom_eq_false {t : Token} (h : t.kind.isAtom = false) :
    t.leaf? = none := by
  rw [Option.eq_none_iff_forall_ne_some]
  intro f hf
  rw [isAtom_iff_leaf?.mpr ⟨f, hf⟩] at h
  cases h

/-- That the leaves of a phrase are some expressions; of suffixes, that they add those. -/
def Phrase.HasLeaves : Phrase → List Expr → Prop
  | .expression e, leaves => e.leaves = leaves
  | .suffixes f e, leaves => e.leaves = f.leaves ++ leaves
  | .arguments es, leaves | .furtherArguments es, leaves => Expr.leavesAll es = leaves

theorem Derives.hasLeaves {p : Phrase} {ts : List Token} (h : Derives p ts) :
    p.HasLeaves (ts.filterMap Token.leaf?) := by
  induction h with
  | expression hleaf _ ih =>
      simp only [Phrase.HasLeaves] at ih ⊢
      rw [ih, (Token.leaves_of_leaf? hleaf).1, List.filterMap_cons_some hleaf,
        List.singleton_append]
  | noSuffix => exact (List.append_nil _).symm
  | @suffix _ _ _ l r _ _ hl _ hr _ ihArguments ihSuffixes =>
      have hopen : l.leaf? = none := Token.leaf?_of_isAtom_eq_false (by rw [hl]; rfl)
      have hclose : r.leaf? = none := Token.leaf?_of_isAtom_eq_false (by rw [hr]; rfl)
      simp only [Phrase.HasLeaves, Expr.leaves] at ihArguments ihSuffixes ⊢
      rw [ihSuffixes, ihArguments, List.filterMap_cons_none hopen, List.filterMap_append,
        List.filterMap_cons_none hclose, List.append_assoc]
  | noArgument | lastArgument => rfl
  | argument _ _ ihFirst ihFurther =>
      simp only [Phrase.HasLeaves, Expr.leavesAll] at ihFirst ihFurther ⊢
      rw [ihFirst, ihFurther, List.filterMap_append]
  | @trailingComma c hc =>
      have hcomma : c.leaf? = none := Token.leaf?_of_isAtom_eq_false (by rw [hc]; rfl)
      rw [List.filterMap_cons_none hcomma]
      rfl
  | @furtherArgument c _ _ _ _ hc _ _ ihFirst ihFurther =>
      have hcomma : c.leaf? = none := Token.leaf?_of_isAtom_eq_false (by rw [hc]; rfl)
      simp only [Phrase.HasLeaves, Expr.leavesAll] at ihFirst ihFurther ⊢
      rw [ihFirst, ihFurther, List.filterMap_cons_none hcomma, List.filterMap_append]

namespace Token

/-- That a leaf is the atom that a token spells, at the place of the token. -/
def Carries (t : Token) (leaf : Expr) : Prop :=
  ∃ atom : Atom, t.kind = .ofAtom atom ∧ t.text = String.ofList atom.text ∧
    leaf = atom.toExpr t.start

theorem carries_of_leaf? {source : String} {t : Token} {f : Expr} (ht : t ∈ scan source)
    (hleaf : t.leaf? = some f) : t.Carries f := by
  have hwritten := (Cursor.ofText source.toList).written_tokens
  rw [Cursor.tokens_ofText] at hwritten
  obtain ⟨atom, -, hspelling, hf⟩ := hwritten.valid_of_leaf? ht hleaf
  obtain ⟨hkind, htext⟩ := Prod.mk.inj hspelling
  exact ⟨atom, hkind, htext, hf⟩

theorem forall₂_carries {ts : List Token} (h : ∀ t ∈ ts, ∀ f, t.leaf? = some f → t.Carries f) :
    List.Forall₂ Carries (ts.filter (·.kind.isAtom)) (ts.filterMap leaf?) := by
  induction ts with
  | nil => exact .nil
  | cons t ts ih =>
      obtain ⟨hfirst, hrest⟩ := List.forall_mem_cons.mp h
      cases hatom : t.kind.isAtom with
      | true =>
          obtain ⟨f, hf⟩ := isAtom_iff_leaf?.mp hatom
          rw [List.filterMap_cons_some hf, List.filter_cons, if_pos hatom]
          exact .cons (hfirst f hf) (ih hrest)
      | false =>
          rw [List.filterMap_cons_none (leaf?_of_isAtom_eq_false hatom), List.filter_cons,
            if_neg (by simp [hatom])]
          exact ih hrest

end Token

namespace Expr

theorem leaves_of_parse {limit : Nat} {source : String} {e : Expr}
    (h : parse limit source = .ok e) :
    e.leaves = (Token.scan source).filterMap Token.leaf? :=
  (derives_of_parse h).hasLeaves

/-- The leaves of a program are the atoms of its text. From left to right they are, one for one,
the strings, numbers and words among its tokens, with the same text at the same place, and this
place is the line and column of its offset in the text. Every node of the program stands where its
leftmost leaf stands, and each leaf stands behind those before it. -/
theorem leaves_are_atom_tokens {limit : Nat} {source : String} {e : Expr}
    (h : parse limit source = .ok e) :
    List.Forall₂ Token.Carries ((Token.scan source).filter (·.kind.isAtom)) e.leaves ∧
    (∀ leaf ∈ e.leaves, ∃ p, leaf.position = some p ∧
      (p.line, p.column) = lineCol source.toList p.offset) ∧
    (∀ node, e.Contains node →
      ∃ first more, node.leaves = first :: more ∧ node.position = first.position) ∧
    e.leaves.Pairwise fun a b =>
      ∃ p q, a.position = some p ∧ b.position = some q ∧ p.offset < q.offset := by
  refine ⟨?_, fun leaf hleaf => ?_, fun node hnode => ?_, ?_⟩
  · rw [leaves_of_parse h]
    exact Token.forall₂_carries fun t ht f => Token.carries_of_leaf? ht
  · rw [leaves_of_parse h] at hleaf
    obtain ⟨t, ht, hf⟩ := List.mem_filterMap.mp hleaf
    have hplace := Token.lineCol_start (Token.mem_scan_iff.mp ht).1
    exact ⟨t.start, (Token.leaves_of_leaf? hf).2, hplace.symm⟩
  · obtain ⟨more, hmore⟩ := node.exists_leaves_eq_cons
    obtain ⟨t, -, hleaf, hposition⟩ := starts_of_parse h hnode
    exact ⟨node.leaf, more, hmore, by rw [hposition, (Token.leaves_of_leaf? hleaf).2]⟩
  · rw [leaves_of_parse h, List.pairwise_filterMap]
    have hpairwise := (Cursor.ofText source.toList).pairwise_tokens
    rw [Cursor.tokens_ofText] at hpairwise
    refine hpairwise.imp fun {t u} hlt a ha b hb => ?_
    exact ⟨t.start, u.start, (Token.leaves_of_leaf? ha).2, (Token.leaves_of_leaf? hb).2, hlt⟩

/-- A call of the result of a call, over several lines. -/
def brokenCall : String :=
  "f(\"a\nb\", 07) # (c)\n (x)"

theorem leaves_are_atom_tokens_brokenCall :
    ∃ e, parse 9 brokenCall = .ok e ∧
      ((Token.scan brokenCall).filter (·.kind.isAtom)).map (fun t => (t.text, t.start)) =
        [("f", ⟨1, 1, 0⟩), ("\"a\nb\"", ⟨1, 3, 2⟩), ("07", ⟨2, 5, 9⟩), ("x", ⟨3, 3, 21⟩)] ∧
      List.Forall₂ Token.Carries ((Token.scan brokenCall).filter (·.kind.isAtom)) e.leaves ∧
      (∀ leaf ∈ e.leaves, ∃ p, leaf.position = some p ∧
        (p.line, p.column) = lineCol brokenCall.toList p.offset) ∧
      ∃ first more, e.leaves = first :: more ∧ e.position = first.position := by
  have hparse : (parse 9 brokenCall).toBool = true := by decide +kernel
  cases he : parse 9 brokenCall with
  | error stop =>
      rw [he] at hparse
      cases hparse
  | ok e =>
      obtain ⟨hcarries, hlineCol, hplaces, -⟩ := leaves_are_atom_tokens he
      exact ⟨e, rfl, by decide +kernel, hcarries, hlineCol, hplaces e .self⟩

end Expr

end Egg
