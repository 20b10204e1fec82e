import PropDiagram.Datum
import PropDiagram.Formula.Evaluation

set_option autoImplicit false

/-! # Assignments

An assignment gives a truth value to each name of an order of names, and keeps that order. The
assignments to `n` names are numbered from zero to `2 ^ n - 1`: the first name has the most
significant bit, so it varies slowest and the last name fastest. -/

namespace PropDiagram

/-- Truth values for names, in the order of the names. -/
abbrev Assignment : Type := List (String × Bool)

namespace Assignment

def valuation (a : Assignment) : Valuation := fun name => a.lookup name

/-- The assignment with number `i`: each name has the bit of `i` whose weight is two to the number
    of names after it. -/
def numbered : (order : List String) → (i : Nat) → Assignment
  | [], _ => []
  | x :: xs, i => (x, i.testBit xs.length) :: numbered xs i

def text (a : Assignment) : String :=
  Text.mapping (a.map fun e => (Text.quoted e.1, Text.ofBool e.2))

/-- An assignment given by a mapping from names to values of any type, read by what counts as
    true. -/
def valuationOf (entries : List (String × Datum)) : Valuation :=
  fun name => (entries.lookup name).map Datum.isTrue

/-- The number of the assignment that a loosely typed value equals, if it equals one: a mapping of
    exactly these names to values that equal truth values. -/
def numberOf? (order : List String) : Datum → Option Nat
  | .mapping entries =>
    if entries.length = order.length then
      order.foldlM
        (fun i name => do
          let d ← entries.lookup name
          let b ← d.equalTruth?
          pure (2 * i + b.toNat))
        0
    else none
  | _ => none

/-! ## Names and numbers -/

@[simp] theorem numbered_nil (i : Nat) : numbered [] i = [] := rfl

@[simp] theorem numbered_cons (x : String) (xs : List String) (i : Nat) :
    numbered (x :: xs) i = (x, i.testBit xs.length) :: numbered xs i := rfl

@[simp] theorem map_fst_numbered (order : List String) (i : Nat) :
    (numbered order i).map Prod.fst = order := by
  induction order with
  | nil => rfl
  | cons x xs ih => simp only [numbered_cons, List.map_cons, ih]

@[simp] theorem length_numbered (order : List String) (i : Nat) :
    (numbered order i).length = order.length := by
  induction order with
  | nil => rfl
  | cons x xs ih => simp only [numbered_cons, List.length_cons, ih]

end Assignment

end PropDiagram
