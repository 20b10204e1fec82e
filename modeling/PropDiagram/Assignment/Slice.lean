import PropDiagram.Datum
import PropDiagram.Fault

set_option autoImplicit false

/-! # Slices

A slice picks positions of a sequence at equal distances. Its bounds may be missing, negative, which
counts from the end, or beyond the ends, where they are cut off. With a negative step the slice runs
from the end towards the front. -/

namespace PropDiagram

/-- Where to start, where to stop and how far to advance; a missing part has its usual value. -/
structure Slice where
  start : Option Int
  stop : Option Int
  step : Option Int
deriving DecidableEq, Repr

namespace Slice

/-- A bound of a slice of a sequence of `length` items, cut to the range from `lower` to `upper`. -/
def clamp (length lower upper bound : Int) : Int :=
  if bound < 0 then max (bound + length) lower else min bound upper

/-- The first position and the bound that positions stay before, for this step. -/
def bounds (s : Slice) (length : Nat) (step : Int) : Int × Int :=
  let lower : Int := if step < 0 then -1 else 0
  let upper : Int := if step < 0 then length - 1 else length
  let whenMissing := if step < 0 then (upper, lower) else (lower, upper)
  ((s.start.map (clamp length lower upper)).getD whenMissing.1,
    (s.stop.map (clamp length lower upper)).getD whenMissing.2)

/-- How many steps lead from `first` to the last position before `bound`. -/
def count (first bound step : Int) : Nat :=
  -- If the bound is not ahead of the first position, the quotient is not positive.
  if 0 < step then ((bound - first + step - 1) / step).toNat
  else ((first - bound - step - 1) / -step).toNat

/-- The positions that the slice picks from a sequence of `length` items, in its order. A step of
    zero picks nothing and is a fault. -/
def positions (s : Slice) (length : Nat) : Except Fault (List Nat) :=
  let step := s.step.getD 1
  if step = 0 then .error .zeroStep
  else
    let (first, bound) := s.bounds length step
    .ok ((List.range (count first bound step)).map fun (k : Nat) => (first + k * step).toNat)

def boundOf : Datum → Except Fault (Option Int)
  | .none => .ok none
  | d => match d.index? with
    | some i => .ok (some i)
    | none => .error .notASliceBound

/-- A slice given by values of any type. The step is judged first. -/
def ofData (start stop step : Datum) : Except Fault Slice := do
  let step ← boundOf step
  if step = some 0 then throw .zeroStep
  let start ← boundOf start
  let stop ← boundOf stop
  pure ⟨start, stop, step⟩

/-! ## Samples -/

example : (Slice.mk (some (-2)) none none).positions 5 = .ok [3, 4] := by rfl
example : (Slice.mk none none (some (-2))).positions 5 = .ok [4, 2, 0] := by rfl
example : (Slice.mk (some 7) (some 0) (some (-3))).positions 5 = .ok [4, 1] := by rfl

end Slice

end PropDiagram
