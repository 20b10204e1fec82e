import Mathlib.Data.List.Basic
import PropDiagram.Assignment.Slice

set_option autoImplicit false

/-! # Slicing a list

What a slice cuts out of a list, told without positions: the part between the two bounds, turned round
if the step is negative, and of this every item at a distance of the step (`Slice.cut`). Bounds need
not be cut off at the ends here, since taking or dropping too much does no harm.

The positions of a slice pick the same items (`Slice.positions_eq`). -/

namespace PropDiagram

namespace Slice

variable {α β : Type}

/-! ## Every item at a distance -/

/-- The first item, and every item at a distance of `k` from one before. -/
def every (k : Nat) : List α → List α
  | [] => []
  | x :: xs => x :: every k (xs.drop (k - 1))
termination_by xs => xs.length
decreasing_by
  rw [List.length_drop, List.length_cons]
  omega

theorem getElem?_every {k : Nat} (hk : 0 < k) (xs : List α) (i : Nat) :
    (every k xs)[i]? = xs[i * k]? := by
  induction xs using every.induct k generalizing i with
  | case1 => simp [every]
  | case2 x xs ih =>
      rw [every]
      cases i with
      | zero => simp
      | succ i =>
          have hnext : (i + 1) * k = k - 1 + i * k + 1 := by
            rw [Nat.add_one_mul]
            omega
          rw [List.getElem?_cons_succ, ih, List.getElem?_drop, hnext, List.getElem?_cons_succ]

theorem map_every (f : α → β) {k : Nat} (hk : 0 < k) (xs : List α) :
    (every k xs).map f = every k (xs.map f) := by
  apply List.ext_getElem?
  intro i
  simp only [List.getElem?_map, getElem?_every hk]

/-! ## Cutting -/

/-- The position that a bound stands for in a list of this length; a negative bound counts from the
    end. -/
def place (length : Nat) (bound : Int) : Int := if bound < 0 then bound + length else bound

/-- Where the slice starts in a list of this length. -/
def startIn (s : Slice) (length : Nat) (step : Int) : Int :=
  (s.start.map (place length)).getD (if step < 0 then length - 1 else 0)

/-- The position that the slice does not reach any more in a list of this length. -/
def stopIn (s : Slice) (length : Nat) (step : Int) : Int :=
  (s.stop.map (place length)).getD (if step < 0 then -1 else length)

/-- The items that a slice cuts out of a list: from the start on and before the stop, or backwards from
    the start and behind the stop, always as far from each other as the step says. -/
def cut (s : Slice) (xs : List α) : List α :=
  let step := s.step.getD 1
  let start := s.startIn xs.length step
  let stop := s.stopIn xs.length step
  if step < 0 then every step.natAbs ((xs.take (start + 1).toNat).drop (stop + 1).toNat).reverse
  else every step.natAbs ((xs.take stop.toNat).drop start.toNat)

theorem step_ne_zero {s : Slice} (h : s.step ≠ some 0) : s.step.getD 1 ≠ 0 := by
  cases hstep : s.step with
  | none => decide
  | some step =>
      rintro rfl
      exact h hstep

theorem map_cut {s : Slice} (h : s.step ≠ some 0) (f : α → β) (xs : List α) :
    (s.cut xs).map f = s.cut (xs.map f) := by
  have hk : 0 < (s.step.getD 1).natAbs := Int.natAbs_pos.2 (step_ne_zero h)
  simp only [cut, List.length_map]
  split <;> simp only [map_every f hk, List.map_reverse, List.map_drop, List.map_take]

/-! ## Positions -/

theorem clamp_forwards (length : Nat) (bound : Int) :
    clamp length 0 length bound = (min (place length bound).toNat length : Nat) := by
  rw [clamp, place]
  split <;> omega

theorem clamp_backwards (length : Nat) (bound : Int) :
    clamp length (-1) (length - 1) bound = (min (place length bound + 1).toNat length : Nat) - 1 := by
  rw [clamp, place]
  split <;> omega

/-- Forwards, the bounds are cut off at the front and behind the last position. -/
theorem bounds_of_pos (s : Slice) (length : Nat) {step : Int} (h : 0 < step) :
    (s.bounds length step).1 = (min (s.startIn length step).toNat length : Nat) ∧
      (s.bounds length step).2 = (min (s.stopIn length step).toNat length : Nat) := by
  have hneg : ¬ step < 0 := by omega
  simp only [bounds, startIn, stopIn, if_neg hneg]
  constructor
  · cases s.start with
    | none => simp
    | some b => exact clamp_forwards length b
  · cases s.stop with
    | none => simp
    | some b => exact clamp_forwards length b

/-- Backwards, they are cut off before the front and at the last position. -/
theorem bounds_of_neg (s : Slice) (length : Nat) {step : Int} (h : step < 0) :
    (s.bounds length step).1 = (min (s.startIn length step + 1).toNat length : Nat) - 1 ∧
      (s.bounds length step).2 = (min (s.stopIn length step + 1).toNat length : Nat) - 1 := by
  simp only [bounds, startIn, stopIn, if_pos h]
  constructor
  · cases s.start with
    | none =>
        simp only [Option.map_none, Option.getD_none]
        omega
    | some b => exact clamp_backwards length b
  · cases s.stop with
    | none => simp
    | some b => exact clamp_backwards length b

theorem lt_count_iff_of_pos {first bound step : Int} (h : 0 < step) (i : Nat) :
    i < count first bound step ↔ first + i * step < bound := by
  have hquotient : (i + 1 : Int) ≤ (bound - first + step - 1) / step
      ↔ (i + 1 : Int) * step ≤ bound - first + step - 1 := Int.le_ediv_iff_mul_le h
  rw [Int.add_mul] at hquotient
  rw [count, if_pos h]
  omega

theorem lt_count_iff_of_neg {first bound step : Int} (h : step < 0) (i : Nat) :
    i < count first bound step ↔ bound < first + i * step := by
  have hquotient : (i + 1 : Int) ≤ (first - bound - step - 1) / -step
      ↔ (i + 1 : Int) * -step ≤ first - bound - step - 1 := Int.le_ediv_iff_mul_le (by omega)
  rw [Int.add_mul, Int.mul_neg] at hquotient
  rw [count, if_neg (by omega)]
  omega

theorem getElem?_range_eq (n i : Nat) : (List.range n)[i]? = if i < n then some i else none := by
  split
  · next h => exact List.getElem?_range h
  · next h => simpa using h

theorem getElem?_range_drop (n d i : Nat) :
    ((List.range n).drop d)[i]? = if d + i < n then some (d + i) else none := by
  rw [List.getElem?_drop, getElem?_range_eq]

theorem getElem?_range_drop_reverse (n d i : Nat) :
    ((List.range n).drop d).reverse[i]? = if d + i < n then some (n - 1 - i) else none := by
  have hlength : ((List.range n).drop d).length = n - d := by simp
  split
  · next h =>
      rw [List.getElem?_reverse (by omega), hlength, getElem?_range_drop, if_pos (by omega)]
      congr 1
      omega
  · next h =>
      rw [List.getElem?_eq_none_iff, List.length_reverse]
      omega

/-- The positions of a slice are what it cuts out of the list of all positions. -/
theorem positions_eq {s : Slice} (h : s.step ≠ some 0) (length : Nat) :
    s.positions length = .ok (s.cut (List.range length)) := by
  have hne := step_ne_zero h
  rw [positions, cut]
  simp only [List.length_range, List.take_range]
  generalize s.step.getD 1 = step at hne
  have hk : 0 < step.natAbs := Int.natAbs_pos.2 hne
  rw [if_neg hne]
  congr 1
  apply List.ext_getElem?
  intro i
  have hdistance := Int.natCast_mul i step.natAbs
  rcases Int.lt_or_gt_of_ne hne with hneg | hpos
  · obtain ⟨hfirst, hbound⟩ := bounds_of_neg s length hneg
    rw [Int.ofNat_natAbs_of_nonpos (Int.le_of_lt hneg), Int.mul_neg] at hdistance
    rw [if_pos hneg, getElem?_every hk, getElem?_range_drop_reverse, List.getElem?_map,
      getElem?_range_eq, hfirst, hbound]
    simp only [lt_count_iff_of_neg hneg]
    generalize i * step.natAbs = distance at hdistance ⊢
    split
    · rw [if_pos (by omega), Option.map_some, Option.some.injEq]
      omega
    · rw [if_neg (by omega), Option.map_none]
  · obtain ⟨hfirst, hbound⟩ := bounds_of_pos s length hpos
    have hneg : ¬ step < 0 := by omega
    rw [Int.natAbs_of_nonneg (Int.le_of_lt hpos)] at hdistance
    rw [if_neg hneg, getElem?_every hk, getElem?_range_drop, List.getElem?_map,
      getElem?_range_eq, hfirst, hbound]
    simp only [lt_count_iff_of_pos hpos]
    generalize i * step.natAbs = distance at hdistance ⊢
    split
    · rw [if_pos (by omega), Option.map_some, Option.some.injEq]
      omega
    · rw [if_neg (by omega), Option.map_none]

end Slice

end PropDiagram
