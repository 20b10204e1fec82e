import PropDiagram.Assignment.Enumeration

set_option autoImplicit false

/-! # Decision trees

A decision tree tests literals on the way down and holds a truth value at each leaf. The decision
tree of a formula over an order of names is complete: every path tests all the names in their order,
and its leaf has the value of the formula under the assignment that the path spells out.

A test may lack a name, and a leaf may lack a value. Neither arises from a formula. -/

namespace PropDiagram

/-- A tree of tests. -/
inductive Tree where
  | leaf (value : Option Bool)
  /-- A test of the literal: `low` if it is false, `high` if it is true. -/
  | node (name : Option String) (low high : Tree)
deriving DecidableEq, Repr

namespace Tree

/-- The number of nodes, tests and leaves. -/
def size : Tree → Nat
  | leaf _ => 1
  | node _ low high => 1 + low.size + high.size

/-- The tree as nested descriptions of its nodes. -/
def text : Tree → String
  | leaf value => "Terminal(" ++ Text.ofBoolOption value ++ ")"
  | node name low high =>
    "Node(" ++ Text.joined [Text.quotedOption name, low.text, high.text] ++ ")"

/-- The values of the leaves, from left to right. -/
def leaves : Tree → List (Option Bool)
  | leaf value => [value]
  | node _ low high => low.leaves ++ high.leaves

/-- The complete tree that tests the names in order, where `assigned` are the names tested above and
    `f` gives the values of the leaves. The first fault of `f`, from left to right, is the
    outcome. -/
def complete (f : Assignment → Except Fault Bool) :
    (order : List String) → (assigned : Assignment) → Except Fault Tree
  | [], assigned => (f assigned).map fun b => leaf (some b)
  | x :: xs, assigned => do
    let low ← complete f xs (assigned ++ [(x, false)])
    let high ← complete f xs (assigned ++ [(x, true)])
    pure (node (some x) low high)

/-- The decision tree of a formula over an order of names. -/
def ofFormula [DepthLimits] (f : Formula String) (order : List String) : Except Fault Tree :=
  complete (fun a => f.evaluate a.valuation) order []

/-- The complete tree that tests the names in order, grown from a supply of assignments: each leaf,
    from left to right, takes the next assignment and has the value that `f` gives it. No leaf knows
    which path leads to it. What is left of the supply is handed on. -/
def grow (f : Assignment → Except Fault Bool) :
    (order : List String) → Assignments.Supply → Except Fault (Tree × Assignments.Supply)
  | [], s =>
    match s.take? with
    | some (a, s) => (f a).map fun b => (leaf (some b), s)
    | none => .error .assignmentsExhausted
  | x :: xs, s => do
    let (low, s) ← grow f xs s
    let (high, s) ← grow f xs s
    pure (node (some x) low high, s)

/-- The decision tree of a formula, grown from all assignments to the names. It uses up all of them. -/
def ofAssignments [DepthLimits] (f : Formula String) (assignments : Assignments) :
    Except Fault Tree := do
  let supply ← assignments.supply
  let (tree, rest) ← grow (fun a => f.evaluate a.valuation) assignments.order supply
  if rest.take?.isSome then throw .assignmentsLeft
  pure tree

end Tree

end PropDiagram
