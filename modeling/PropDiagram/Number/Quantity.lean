import PropDiagram.Fault
import PropDiagram.Number.Shortest

set_option autoImplicit false

/-! # Quantities

A quantity is counted exactly as long as only whole numbers enter it, and approximately from the
first negative power of two on: that power is a floating-point number, and so is every sum and
product it enters.

What a computation with powers of two needs is collected in `Arithmetic`, so that the same
computation can be done with other numbers. -/

namespace PropDiagram

/-- Numbers with truth values, powers of two, sums and products. Sums and products may fail. -/
structure Arithmetic (α : Type) where
  ofBool : Bool → α
  powTwo : Int → α
  add : α → α → Except Fault α
  mul : α → α → Except Fault α

/-- A whole number, or an approximate number. -/
inductive Quantity where
  | exact (n : Nat)
  | approximate (x : Binary64)
deriving DecidableEq, Repr

namespace Quantity

open Powers

/-- The approximate number nearest to the quantity. -/
def approximated : Quantity → Except Fault Binary64
  | exact n => match Binary64.ofNat? n with
    | some x => .ok x
    | none => .error .numberTooLarge
  | approximate x => .ok x

/-- A sum or product: exact of exact quantities, else approximate. -/
def combine (whole : Nat → Nat → Nat) (near : Binary64 → Binary64 → Binary64)
    (a b : Quantity) : Except Fault Quantity :=
  match a, b with
  | exact m, exact n => .ok (exact (whole m n))
  | a, b => do
    let x ← a.approximated
    let y ← b.approximated
    pure (approximate (near x y))

/-- A power of two: exact unless the exponent is negative. -/
def powTwo (k : Int) : Quantity :=
  if 0 ≤ k then exact (2 ^ k.toNat) else approximate (Binary64.powTwo k)

def arithmetic : Arithmetic Quantity where
  ofBool b := exact b.toNat
  powTwo := powTwo
  add := combine (· + ·) Binary64.add
  mul := combine (· * ·) Binary64.mul

def text : Quantity → String
  | exact n => toString n
  | approximate x => x.text

end Quantity

end PropDiagram
