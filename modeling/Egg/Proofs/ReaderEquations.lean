import Egg.Expr.Parser

namespace Egg.Expr

/-- A result of reading without the proof that comes with it. -/
def forget {α : Type} {p : α × Cursor → Prop} :
    Except Stop { r : α × Cursor // p r } → Except Stop (α × Cursor)
  | .ok r => .ok r.1
  | .error stop => .error stop

theorem forget_readArguments (item : Reader Expr) (c : Cursor) :
    forget (readArguments item c) =
      if c.skip.rest.head? = some ')' then .ok ([], c.skip.next)
      else match forget (item c) with
        | .error stop => .error stop
        | .ok (e, c₁) =>
            if c₁.rest.head? = some ',' then
              (forget (readArguments item c₁.next)).map fun r => (e :: r.1, r.2)
            else if c₁.rest.head? = some ')' then
              (forget (readArguments item c₁)).map fun r => (e :: r.1, r.2)
            else c₁.reject .noSeparator := by
  rw [readArguments]
  split
  · rfl
  · cases hitem : item c with
    | error stop => rfl
    | ok r =>
        obtain ⟨⟨e, c₁⟩, h₁⟩ := r
        change forget (if hcomma : c₁.rest.head? = some ',' then _ else _) = if _ then _ else _
        by_cases hcomma : c₁.rest.head? = some ','
        · rw [dif_pos hcomma, if_pos hcomma]
          cases readArguments item c₁.next <;> rfl
        · rw [dif_neg hcomma, if_neg hcomma]
          by_cases hclose : c₁.rest.head? = some ')'
          · rw [if_pos hclose, if_pos hclose]
            cases readArguments item c₁ <;> rfl
          · rw [if_neg hclose, if_neg hclose]
            rfl

theorem forget_readApplications (item : Reader Expr) (f : Expr) (c : Cursor) :
    forget (readApplications item f c) =
      if c.skip.rest.head? = some '(' then
        match forget (readArguments item c.skip.next) with
        | .error stop => .error stop
        | .ok (es, c₁) => forget (readApplications item (apply f es f.position) c₁)
      else .ok (f, c.skip) := by
  rw [readApplications]
  split
  · cases hargs : readArguments item c.skip.next with
    | error stop => rfl
    | ok r =>
        obtain ⟨⟨es, c₁⟩, h₁⟩ := r
        simp only [forget, bind, Except.bind]
        cases readApplications item (apply f es f.position) c₁ <;> rfl
  · rfl

theorem forget_readExpression_succ (limit : Nat) (c : Cursor) :
    forget (readExpression (limit + 1) c) =
      match Atom.read? c.skip.rest with
      | none => c.skip.reject .noExpression
      | some atom =>
          forget (readApplications (readExpression limit) (atom.toExpr c.skip.position)
            (c.skip.move atom.text)) := by
  rw [readExpression]
  split
  · rename_i hread
    simp only [hread]
    rfl
  · rename_i atom hread
    simp only [hread]
    cases readApplications (readExpression limit) (atom.toExpr c.skip.position)
      (c.skip.move atom.text) <;> rfl

theorem parse_eq (limit : Nat) (source : String) :
    parse limit source =
      match forget (readExpression limit (.ofText source.toList)) with
      | .error stop => .error stop
      | .ok (e, c) => if c.rest.isEmpty then .ok e else c.reject .trailingText := by
  rw [parse]
  cases readExpression limit (.ofText source.toList) <;> rfl

theorem parsePrefix_eq (limit : Nat) (text : String) :
    parsePrefix limit text =
      match forget (readExpression limit (.ofText text.toList)) with
      | .error stop => .error stop
      | .ok (e, c) => .ok (e, String.ofList c.rest) := by
  rw [parsePrefix]
  cases readExpression limit (.ofText text.toList) <;> rfl

theorem property_of_forget {α : Type} {p : α × Cursor → Prop} {r : α × Cursor}
    {result : Except Stop { r : α × Cursor // p r }} (h : forget result = .ok r) : p r := by
  cases result with
  | error stop => cases h
  | ok moved =>
      cases h
      exact moved.2

theorem map_ok {α β : Type} {x : Except Stop α} {f : α → β} {b : β} (h : x.map f = .ok b) :
    ∃ a, x = .ok a ∧ f a = b := by
  cases x with
  | error stop => cases h
  | ok a => exact ⟨a, rfl, Except.ok.inj h⟩

theorem map_error {α β : Type} {x : Except Stop α} {f : α → β} {stop : Stop}
    (h : x.map f = .error stop) : x = .error stop := by
  cases x with
  | error stop' => exact congrArg _ (Except.error.inj h)
  | ok a => cases h

theorem readArguments_ok {item : Reader Expr} {c c' : Cursor} {es : List Expr}
    (h : forget (readArguments item c) = .ok (es, c')) :
    c.skip.rest.head? = some ')' ∧ es = [] ∧ c' = c.skip.next ∨
      ∃ e c₁ more, forget (item c) = .ok (e, c₁) ∧ es = e :: more ∧
        (c₁.rest.head? = some ',' ∧ forget (readArguments item c₁.next) = .ok (more, c') ∨
          c₁.rest.head? = some ')' ∧ forget (readArguments item c₁) = .ok (more, c')) := by
  rw [forget_readArguments] at h
  split at h
  · rename_i hclose
    cases h
    exact .inl ⟨hclose, rfl, rfl⟩
  · right
    split at h
    · cases h
    · rename_i e c₁ hitem
      split at h
      · rename_i hcomma
        obtain ⟨⟨more, c₂⟩, hmore, hes⟩ := map_ok h
        cases hes
        exact ⟨e, c₁, more, hitem, rfl, .inl ⟨hcomma, hmore⟩⟩
      · split at h
        · rename_i hclose
          obtain ⟨⟨more, c₂⟩, hmore, hes⟩ := map_ok h
          cases hes
          exact ⟨e, c₁, more, hitem, rfl, .inr ⟨hclose, hmore⟩⟩
        · cases h

theorem readArguments_error {item : Reader Expr} {c : Cursor} {stop : Stop}
    (h : forget (readArguments item c) = .error stop) :
    c.skip.rest.head? ≠ some ')' ∧
      (forget (item c) = .error stop ∨
        ∃ e c₁, forget (item c) = .ok (e, c₁) ∧
          (c₁.rest.head? = some ',' ∧ forget (readArguments item c₁.next) = .error stop ∨
            c₁.rest.head? = some ')' ∧ forget (readArguments item c₁) = .error stop ∨
            c₁.rest.head? ≠ some ',' ∧ c₁.rest.head? ≠ some ')' ∧
              stop = .rejected ⟨.noSeparator, c₁.position, String.ofList c₁.rest⟩)) := by
  rw [forget_readArguments] at h
  split at h
  · cases h
  · rename_i hclose
    refine ⟨hclose, ?_⟩
    split at h
    · rename_i stop' hitem
      cases h
      exact .inl hitem
    · rename_i e c₁ hitem
      refine .inr ⟨e, c₁, hitem, ?_⟩
      split at h
      · rename_i hcomma
        exact .inl ⟨hcomma, map_error h⟩
      · rename_i hcomma
        split at h
        · rename_i hclose
          exact .inr (.inl ⟨hclose, map_error h⟩)
        · rename_i hclose
          cases h
          exact .inr (.inr ⟨hcomma, hclose, rfl⟩)

theorem readApplications_ok {item : Reader Expr} {f e : Expr} {c c' : Cursor}
    (h : forget (readApplications item f c) = .ok (e, c')) :
    c.skip.rest.head? ≠ some '(' ∧ e = f ∧ c' = c.skip ∨
      c.skip.rest.head? = some '(' ∧
        ∃ es c₁, forget (readArguments item c.skip.next) = .ok (es, c₁) ∧
          forget (readApplications item (apply f es f.position) c₁) = .ok (e, c') := by
  rw [forget_readApplications] at h
  split at h
  · rename_i hopen
    split at h
    · cases h
    · rename_i es c₁ hargs
      exact .inr ⟨hopen, es, c₁, hargs, h⟩
  · rename_i hopen
    cases h
    exact .inl ⟨hopen, rfl, rfl⟩

theorem readApplications_error {item : Reader Expr} {f : Expr} {c : Cursor} {stop : Stop}
    (h : forget (readApplications item f c) = .error stop) :
    c.skip.rest.head? = some '(' ∧
      (forget (readArguments item c.skip.next) = .error stop ∨
        ∃ es c₁, forget (readArguments item c.skip.next) = .ok (es, c₁) ∧
          forget (readApplications item (apply f es f.position) c₁) = .error stop) := by
  rw [forget_readApplications] at h
  split at h
  · rename_i hopen
    refine ⟨hopen, ?_⟩
    split at h
    · rename_i stop' hargs
      cases h
      exact .inl hargs
    · rename_i es c₁ hargs
      exact .inr ⟨es, c₁, hargs, h⟩
  · cases h

end Egg.Expr
