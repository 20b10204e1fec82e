import PropDiagram.Diagram.Reduced
import PropDiagram.Number.Quantity

set_option autoImplicit false

/-! # Counting models

The number of assignments that a reduced diagram maps to true is counted from the terminals up. The
level of a literal is its position in an order of names, and that of a terminal the number of names.
A branch that skips levels stands for two assignments per level skipped, and so do the levels above
the root.

The count is the same arithmetic for orders that do not fit the diagram: if a branch leads to a level
above its node, a negative power of two enters. -/

namespace PropDiagram

/-- The last position of the name in the order, where the order starts at position `i`. -/
def lastPosition? (name : String) : (order : List String) → (i : Nat) → Option Nat
  | [], _ => none
  | x :: xs, i => match lastPosition? name xs (i + 1) with
    | some j => some j
    | none => if x = name then some i else none

namespace Reduced

variable {α : Type}

/-- The level of an entry: the position of its literal, or the number of names if it has none. -/
def level (order : List String) : Entry → Except Fault Nat
  | .test (some name) _ _ => match lastPosition? name order 0 with
    | some i => .ok i
    | none => .error (.nameNotInOrder name)
  | _ => .ok order.eraseDups.length

/-- What a branch adds to the count of a test at level `i`: the count of the successor, doubled for
    each level between. -/
def branchCount (A : Arithmetic α) (t : Table) (order : List String) (counts : Array α) (i u : Nat) :
    Except Fault α :=
  match counts[u]?, t.entries[u]? with
  | some n, some e => do
    let j ← level order e
    A.mul n (A.powTwo ((j : Int) - i - 1))
  -- Successors come before their node, so their counts are there.
  | _, _ => .error (.nodeNotFound (some u))

/-- The count of an entry, from the counts of the entries before it. -/
def entryCount (A : Arithmetic α) (t : Table) (order : List String) (counts : Array α) :
    Entry → Except Fault α
  | .terminal (some b) => .ok (A.ofBool b)
  | .terminal none => .error .valueNotCountable
  | .test name low high => do
    let i ← level order (.test name low high)
    let a ← branchCount A t order counts i low
    let b ← branchCount A t order counts i high
    A.add a b

/-- The number of assignments to the names that the diagram maps to true, computed with the numbers
    of `A`. -/
def countWith (A : Arithmetic α) (r : Reduced) (order : List String) : Except Fault α := do
  let counts ← r.table.entries.toList.foldlM
    (fun counts e => do
      let n ← entryCount A r.table order counts e
      pure (counts.push n))
    #[]
  match r.place? r.root with
  | some p =>
    match counts[p.val]? with
    | some n => do
      let j ← level order (r.table.get p)
      A.mul n (A.powTwo j)
    | none => throw (.nodeNotFound r.root)
  | none => throw (.nodeNotFound r.root)

/-- The number of assignments to the names that the diagram maps to true. -/
def count (r : Reduced) (order : List String) : Except Fault Quantity :=
  r.countWith Quantity.arithmetic order

end Reduced

end PropDiagram
