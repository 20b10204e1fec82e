import Mathlib.Data.List.Nodup
import PropDiagram.Assignment.Enumeration
import PropDiagram.Proofs.Formula.Evaluation

set_option autoImplicit false

/-! # Assignments and their numbers

An assignment to an order of names pairs them with as many truth values. The numbered assignments
are these pairings: the truth values are the binary digits of the number, the most significant one
first. -/

namespace PropDiagram

namespace Assignment

open Powers

/-! ## Digits -/

/-- The number with these binary digits, the most significant one first. -/
def number : List Bool → Nat
  | [] => 0
  | b :: bs => 2 ^ bs.length * b.toNat + number bs

theorem number_lt (bs : List Bool) : number bs < 2 ^ bs.length := by
  induction bs with
  | nil => decide
  | cons b bs ih =>
      have hpow : 2 ^ (bs.length + 1) = 2 ^ bs.length * 2 := Nat.pow_succ ..
      have hb : 2 ^ bs.length * b.toNat ≤ 2 ^ bs.length * 1 :=
        Nat.mul_le_mul_left _ (Bool.toNat_le b)
      rw [number, List.length_cons, hpow]
      omega

/-- Only the binary digits that have a name matter. -/
theorem numbered_congr {order : List String} {i j : Nat}
    (h : ∀ k, k < order.length → i.testBit k = j.testBit k) :
    numbered order i = numbered order j := by
  induction order with
  | nil => rfl
  | cons x xs ih =>
      have hrest := ih fun k hk => h k (by rw [List.length_cons]; omega)
      rw [numbered_cons, numbered_cons, hrest, h xs.length (by simp)]

theorem numbered_number {order : List String} {bs : List Bool} (h : bs.length = order.length) :
    numbered order (number bs) = order.zip bs := by
  induction order generalizing bs with
  | nil => rfl
  | cons x xs ih =>
      cases bs with
      | nil => simp at h
      | cons b bs =>
          have hlength : bs.length = xs.length := by simpa using h
          have hbits := Nat.testBit_two_pow_mul_add b.toNat (number_lt bs)
          have hfirst : (number (b :: bs)).testBit xs.length = b := by
            rw [number, hbits, ← hlength, if_neg (Nat.lt_irrefl _), Nat.sub_self]
            cases b <;> rfl
          have hrest : numbered xs (number (b :: bs)) = numbered xs (number bs) := by
            apply numbered_congr
            intro k hk
            rw [number, hbits, if_pos (by omega)]
          rw [numbered_cons, hfirst, hrest, ih hlength, List.zip_cons_cons]

/-- Every pairing of the names with truth values has a number. -/
theorem exists_numbered_eq_zip {order : List String} {bs : List Bool}
    (h : bs.length = order.length) : ∃ i, i < 2 ^ order.length ∧ numbered order i = order.zip bs :=
  ⟨number bs, h ▸ number_lt bs, numbered_number h⟩

theorem exists_zip_eq_numbered (order : List String) (i : Nat) :
    ∃ bs : List Bool, bs.length = order.length ∧ numbered order i = order.zip bs := by
  refine ⟨(numbered order i).map Prod.snd, by simp, ?_⟩
  calc numbered order i
      = ((numbered order i).map Prod.fst).zip ((numbered order i).map Prod.snd) := by
        rw [← List.unzip_fst, ← List.unzip_snd, List.zip_unzip]
    _ = order.zip ((numbered order i).map Prod.snd) := by rw [map_fst_numbered]

/-! ## Numbers as branches -/

/-- The branches that a numbered assignment spells out. -/
def branches (order : List String) (i : Nat) : List Bool :=
  (Assignment.numbered order i).map Prod.snd

theorem zip_branches (order : List String) (i : Nat) :
    order.zip (branches order i) = numbered order i := by
  obtain ⟨bs, hbs, hnumbered⟩ := exists_zip_eq_numbered order i
  rw [branches, hnumbered, List.map_snd_zip (Nat.le_of_eq hbs)]

@[simp] theorem length_branches (order : List String) (i : Nat) :
    (branches order i).length = order.length := by
  simp [branches]

theorem length_branches_take {order : List String} {k : Nat} (hk : k ≤ order.length) (i : Nat) :
    (branches (order.take k) i).length = k := by
  simp [hk]

theorem branches_number {order : List String} {bs : List Bool} (h : bs.length = order.length) :
    branches order (number bs) = bs := by
  rw [branches, numbered_number h, List.map_snd_zip (Nat.le_of_eq h)]

theorem branches_cons_of_lt (x : String) (xs : List String) {i : Nat}
    (hi : i < 2 ^ xs.length) : branches (x :: xs) i = false :: branches xs i := by
  rw [branches, numbered_cons, List.map_cons, Nat.testBit_lt_two_pow hi, branches]

theorem branches_cons_add (x : String) (xs : List String) {i : Nat}
    (hi : i < 2 ^ xs.length) :
    branches (x :: xs) (2 ^ xs.length + i) = true :: branches xs i := by
  have hrest : numbered xs (2 ^ xs.length + i) = numbered xs i :=
    numbered_congr fun k hk => Nat.testBit_two_pow_add_gt hk i
  rw [branches, numbered_cons, List.map_cons, hrest, Nat.testBit_two_pow_add_eq,
    Nat.testBit_lt_two_pow hi]
  rfl

end Assignment

/-! ## Values as branches -/

/-- The truth values of the names in order; a name that is not bound counts as false. -/
def Valuation.branches (values : Valuation) (order : List String) : List Bool :=
  order.map fun x => (values x).getD false

@[simp] theorem Valuation.length_branches (values : Valuation) (order : List String) :
    (values.branches order).length = order.length := List.length_map _

namespace Assignment

theorem valuation_zip_map (order : List String) (g : String → Bool) (x : String) :
    valuation (order.zip (order.map g)) x = if x ∈ order then some (g x) else none := by
  induction order with
  | nil => rfl
  | cons y ys ih =>
      rw [valuation] at ih ⊢
      rw [List.map_cons, List.zip_cons_cons, List.lookup_cons, ih]
      by_cases hxy : x = y
      · simp [hxy]
      · have hne : (x == y) = false := by simpa using hxy
        simp [hne, hxy]

theorem exists_map_eq {order : List String} (hnodup : order.Nodup) {bs : List Bool}
    (h : bs.length = order.length) : ∃ g : String → Bool, order.map g = bs := by
  induction order generalizing bs with
  | nil => exact ⟨fun _ => false, (List.length_eq_zero_iff.1 h).symm⟩
  | cons x xs ih =>
      cases bs with
      | nil => simp at h
      | cons b bs =>
          obtain ⟨hx, hxs⟩ := List.nodup_cons.1 hnodup
          obtain ⟨g, hg⟩ := ih hxs (by simpa using h)
          refine ⟨Function.update g x b, ?_⟩
          rw [List.map_cons, Function.update_self, hxs.map_update, if_neg hx, hg]

theorem extends_zip_map {order order' : List String} (h : order ⊆ order') (g : String → Bool) :
    (valuation (order'.zip (order'.map g))).Extends (valuation (order.zip (order.map g))) := by
  intro x b hb
  rw [valuation_zip_map] at hb ⊢
  split at hb
  · next hx => rwa [if_pos (h hx)]
  · cases hb

/-- Values that bind all names of an order extend the assignment that they spell out. -/
theorem extends_branches {values : Valuation} {order : List String}
    (hbound : ∀ x ∈ order, (values x).isSome = true) :
    values.Extends (valuation (order.zip (values.branches order))) := by
  intro x b hb
  rw [Valuation.branches, valuation_zip_map] at hb
  split at hb
  · next hx =>
      obtain ⟨c, hc⟩ := Option.isSome_iff_exists.1 (hbound x hx)
      rwa [hc] at hb ⊢
  · cases hb

end Assignment

end PropDiagram
