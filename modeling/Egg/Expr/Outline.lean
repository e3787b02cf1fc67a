import Egg.Heap

namespace Egg.Expr

mutual

/-- The entries of the outline of an expression that stands at a depth. -/
def entries (heap : Heap) (depth : Nat) : Expr → Except Fault (List (Nat × String))
  | literal v _ => do return [(depth, "literal\t" ++ (← heap.display v))]
  | name x _ _ => .ok [(depth, "identifier\t" ++ x)]
  | apply operator arguments _ => do
    let first ← operator.entries heap (depth + 2)
    let others ← entriesAll heap (depth + 2) arguments
    return [(depth, "application"), (depth + 1, "operator")] ++ first ++
      (depth + 1, "args") :: others
  | foreign thing => .error (.notExpression thing)

def entriesAll (heap : Heap) (depth : Nat) : List Expr → Except Fault (List (Nat × String))
  | [] => .ok []
  | e :: es => do
    let first ← e.entries heap depth
    let others ← entriesAll heap depth es
    return first ++ others

end

def outlineLine (indent : String) (entry : Nat × String) : String :=
  "".intercalate (List.replicate entry.1 indent) ++ entry.2 ++ "\n"

/-- The outline of an expression, with an indent for each level of depth. -/
def outline (heap : Heap) (indent : String) (e : Expr) : Except Fault String := do
  let lines ← e.entries heap 0
  return "".intercalate (lines.map (outlineLine indent))

end Egg.Expr
