import PropDiagram.Proofs.Assignment
import PropDiagram.Proofs.Slicing

set_option autoImplicit false

/-! # The enumeration of assignments

The numbers of the assignments are their truth values read as binary digits, so they come in the
lexicographic order of their truth values (`Assignment.branches_lt_iff`), and every choice of truth
values comes once. Indices, iteration and slices all go by these numbers: they behave as those of the
list of all assignments (`Assignments.enumerates`). -/

namespace PropDiagram

open Powers

namespace Assignment

/-! ## The order of the numbers -/

/-- The binary digits that have a name spell the number without the others. -/
theorem number_branches (order : List String) (i : Nat) :
    number (branches order i) = i % 2 ^ order.length := by
  induction order with
  | nil => simp [branches, number, Nat.mod_one]
  | cons x xs ih =>
      have hrest : number ((numbered xs i).map Prod.snd) = i % 2 ^ xs.length := ih
      rw [branches, numbered_cons, List.map_cons, number, hrest, List.length_map, length_numbered,
        Nat.toNat_testBit, List.length_cons, Nat.mod_pow_succ, Nat.add_comm]

theorem number_branches_of_lt {order : List String} {i : Nat} (hi : i < 2 ^ order.length) :
    number (branches order i) = i := by
  rw [number_branches, Nat.mod_eq_of_lt hi]

/-- Of as many digits, the first that differ decide which number is less. -/
theorem number_lt_number_iff {bs cs : List Bool} (h : bs.length = cs.length) :
    number bs < number cs ↔ bs < cs := by
  induction bs generalizing cs with
  | nil =>
      cases cs with
      | nil => simp [number]
      | cons c cs => simp at h
  | cons b bs ih =>
      cases cs with
      | nil => simp at h
      | cons c cs =>
          have hlength : bs.length = cs.length := by simpa using h
          have hb := number_lt bs
          have hc := number_lt cs
          have hfirst : b < c ↔ b = false ∧ c = true := by cases b <;> cases c <;> decide
          rw [hlength] at hb
          rw [List.cons_lt_cons_iff, ← ih hlength, hfirst, number, number, hlength]
          cases b <;> cases c <;> simp <;> omega

theorem branches_lt_iff {order : List String} {i j : Nat} (hi : i < 2 ^ order.length)
    (hj : j < 2 ^ order.length) : branches order i < branches order j ↔ i < j := by
  rw [← number_lt_number_iff (by simp), number_branches_of_lt hi, number_branches_of_lt hj]

theorem existsUnique_numbered {order : List String} (hnodup : order.Nodup) (g : String → Bool) :
    ∃! i, i < 2 ^ order.length ∧ ∀ y ∈ order, (numbered order i).valuation y = some (g y) := by
  have hvaluation (i : Nat) : ∃ g' : String → Bool, branches order i = order.map g' ∧
      ∀ y ∈ order, (numbered order i).valuation y = some (g' y) := by
    obtain ⟨g', hg'⟩ := exists_map_eq hnodup (length_branches order i)
    refine ⟨g', hg'.symm, fun y hy => ?_⟩
    rw [← zip_branches, ← hg', valuation_zip_map, if_pos hy]
  have hlength : (order.map g).length = order.length := List.length_map _
  refine ⟨number (order.map g), ⟨?_, ?_⟩, ?_⟩
  · rw [← hlength]
    exact number_lt _
  · intro y hy
    rw [numbered_number hlength, valuation_zip_map, if_pos hy]
  · rintro i ⟨hi, hvalues⟩
    obtain ⟨g', hbranches, hg'⟩ := hvaluation i
    have heq : branches order i = order.map g := by
      rw [hbranches]
      refine List.map_congr_left fun y hy => ?_
      exact Option.some.inj ((hg' y hy).symm.trans (hvalues y hy))
    rw [← heq, number_branches_of_lt hi]

end Assignment

namespace Assignments

variable {a : Assignments}

/-! ## Items by number -/

theorem length_of_lt (ha : a.order.length < lengthDigits) : a.length = .ok (2 ^ a.order.length) :=
  if_pos ha

/-- An index gives the assignment with the number `j`, which is the index itself or, if that is
    negative, as far from the end. -/
theorem get_eq (ha : a.order.length < lengthDigits) {i j : Int}
    (hj : j = if i < 0 then i + (2 ^ a.order.length : Nat) else i) :
    a.get i = if 0 ≤ j ∧ j < (2 ^ a.order.length : Nat) then
        .ok (Assignment.numbered a.order j.toNat)
      else .error (.noSuchAssignment j) := by
  rw [get, length_of_lt ha, hj]
  rfl

theorem get_of_lt (ha : a.order.length < lengthDigits) {i : Nat} (hi : i < 2 ^ a.order.length) :
    a.get i = .ok (Assignment.numbered a.order i) := by
  have hlt : (i : Int) < (2 ^ a.order.length : Nat) := Int.ofNat_lt.2 hi
  rw [get_eq ha (if_neg (by omega)).symm, if_pos ⟨by omega, hlt⟩, Int.toNat_natCast]

theorem eq_of_get (ha : a.order.length < lengthDigits) {i : Nat} {x : Assignment}
    (h : a.get i = .ok x) :
    i < 2 ^ a.order.length ∧ x = Assignment.numbered a.order i := by
  rw [get_eq ha (if_neg (by omega)).symm] at h
  split at h
  · next hi =>
      rw [Except.ok.injEq, Int.toNat_natCast] at h
      exact ⟨Int.ofNat_lt.1 hi.2, h.symm⟩
  · cases h

theorem get_of_neg (ha : a.order.length < lengthDigits) {i : Int}
    (hlower : -((2 ^ a.order.length : Nat) : Int) ≤ i) (hi : i < 0) :
    a.get i = a.get (i + (2 ^ a.order.length : Nat)) := by
  rw [get_eq ha (if_pos hi).symm, get_eq ha (if_neg (by omega)).symm]

/-- An index out of range is refused; the fault names it after the length was added. -/
theorem get_of_out (ha : a.order.length < lengthDigits) {i : Int}
    (hi : i < -((2 ^ a.order.length : Nat) : Int) ∨ ((2 ^ a.order.length : Nat) : Int) ≤ i) :
    a.get i = .error (.noSuchAssignment (if i < 0 then i + (2 ^ a.order.length : Nat) else i)) := by
  rw [get_eq ha rfl]
  refine if_neg ?_
  split <;> omega

/-! ## One after the other -/

namespace Supply

theorem take?_of_lt {s : Supply} (h : s.next < s.stop) :
    s.take? = some (Assignment.numbered s.order s.next, ⟨s.order, s.next + 1, s.stop⟩) :=
  if_pos h

theorem take?_of_le {s : Supply} (h : s.stop ≤ s.next) : s.take? = none :=
  if_neg (Nat.not_lt.2 h)

theorem eq_of_take? {s rest : Supply} {x : Assignment} (h : s.take? = some (x, rest)) :
    s.next < s.stop ∧ rest = ⟨s.order, s.next + 1, s.stop⟩ := by
  by_cases hlt : s.next < s.stop
  · rw [take?_of_lt hlt, Option.some.injEq, Prod.mk.injEq] at h
    exact ⟨hlt, h.2.symm⟩
  · rw [take?_of_le (Nat.not_lt.1 hlt)] at h
    cases h

/-- The assignments that are left, taken one after the other until none is left. -/
def items (s : Supply) : List Assignment :=
  match _h : s.take? with
  | none => []
  | some (x, rest) => x :: rest.items
termination_by s.stop - s.next
decreasing_by
  obtain ⟨hlt, rfl⟩ := eq_of_take? _h
  dsimp only
  omega

theorem items_of_lt {s : Supply} (h : s.next < s.stop) :
    s.items = Assignment.numbered s.order s.next :: items ⟨s.order, s.next + 1, s.stop⟩ := by
  rw [items]
  split
  · next hnone => simp [take?_of_lt h] at hnone
  · next x rest hsome =>
      rw [take?_of_lt h, Option.some.injEq, Prod.mk.injEq] at hsome
      rw [← hsome.1, ← hsome.2]

theorem items_of_le {s : Supply} (h : s.stop ≤ s.next) : s.items = [] := by
  rw [items]
  split
  · rfl
  · next x rest hsome => simp [take?_of_le h] at hsome

theorem items_eq (order : List String) (next remaining : Nat) :
    items ⟨order, next, next + remaining⟩
      = (List.range' next remaining).map (Assignment.numbered order) := by
  induction remaining generalizing next with
  | zero => exact items_of_le (Nat.le_refl _)
  | succ remaining ih =>
      have hstop : next + (remaining + 1) = next + 1 + remaining := by omega
      rw [items_of_lt (show next < next + (remaining + 1) by omega), hstop, ih (next + 1),
        List.range'_succ, List.map_cons]

end Supply

theorem supply_eq (ha : a.order.length < lengthDigits) :
    a.supply = .ok ⟨a.order, 0, 2 ^ a.order.length⟩ := by
  rw [supply, length_of_lt ha]
  rfl

theorem firsts_eq (ha : a.order.length < lengthDigits) (k : Nat) :
    a.firsts k
      = .ok (((List.range (2 ^ a.order.length)).map (Assignment.numbered a.order)).take k) := by
  rw [firsts]
  split
  · next hk => rw [hk, List.take_zero]
  · rw [length_of_lt ha, ← List.map_take, List.take_range]
    rfl

theorem slice_eq (ha : a.order.length < lengthDigits) {s : Slice} (hs : s.step ≠ some 0) :
    a.slice s
      = .ok (s.cut ((List.range (2 ^ a.order.length)).map (Assignment.numbered a.order))) := by
  rw [slice, length_of_lt ha, except_ok_bind, Slice.positions_eq hs, except_ok_bind, ← Slice.map_cut hs]
  rfl

/-! ## All assignments -/

/-- **The assignments are enumerated in lexicographic order.** For different names, at most 62, there
    is a list of items, one for each number below `2 ^ n`, such that

    * the index `i` gives the item with the number `i`, which has exactly these names;
    * every choice of truth values for the names is that of exactly one index, and the choices come in
      lexicographic order, the first name before the others and false before true;
    * iteration gives the items in this order, and its beginning is that of the list;
    * a negative index counts from the end, once, and an index that is out of range is refused;
    * a slice whose step is not zero picks what it cuts out of the list of items. -/
theorem enumerates {order : List String} (hnodup : order.Nodup) (hlength : order.length ≤ 62) :
    ∃ a, ofOrder order = .ok a ∧ ∃ items : List Assignment,
      items.length = 2 ^ order.length ∧
      (∀ i : Nat, i < 2 ^ order.length →
        ∃ x, a.get i = .ok x ∧ items[i]? = some x ∧ x.map Prod.fst = order) ∧
      (∀ g : String → Bool, ∃! i : Nat, i < 2 ^ order.length ∧
        ∃ x, a.get i = .ok x ∧ ∀ y ∈ order, x.valuation y = some (g y)) ∧
      (∀ i j : Nat, ∀ x y : Assignment, a.get i = .ok x → a.get j = .ok y →
        (i < j ↔ x.map Prod.snd < y.map Prod.snd)) ∧
      (∃ s, a.supply = .ok s ∧ s.items = items) ∧
      (∀ k, a.firsts k = .ok (items.take k)) ∧
      (∀ i : Int, -((2 ^ order.length : Nat) : Int) ≤ i → i < 0 →
        a.get i = a.get (i + (2 ^ order.length : Nat))) ∧
      (∀ i : Int, i < -((2 ^ order.length : Nat) : Int) ∨ ((2 ^ order.length : Nat) : Int) ≤ i →
        ∃ e, a.get i = .error e ∧ e.kind = .badIndex) ∧
      (∀ s : Slice, s.step ≠ some 0 → a.slice s = .ok (s.cut items)) := by
  have hvalid : order.length < lengthDigits := Nat.lt_succ_of_le hlength
  let a : Assignments := ⟨order, hnodup⟩
  have ha : a.order.length < lengthDigits := hvalid
  refine ⟨a, dif_pos hnodup, (List.range (2 ^ order.length)).map (Assignment.numbered order),
    by simp, ?_, ?_, ?_, ?_, firsts_eq ha, fun i => get_of_neg ha, ?_, fun s => slice_eq ha⟩
  · intro i hi
    refine ⟨_, get_of_lt ha hi, ?_, Assignment.map_fst_numbered order i⟩
    rw [List.getElem?_map, List.getElem?_range hi, Option.map_some]
  · intro g
    obtain ⟨i, ⟨hi, hvalues⟩, hunique⟩ := Assignment.existsUnique_numbered hnodup g
    refine ⟨i, ⟨hi, _, get_of_lt ha hi, hvalues⟩, ?_⟩
    rintro j ⟨hj, x, hx, hxvalues⟩
    rw [get_of_lt ha hj, Except.ok.injEq] at hx
    exact hunique j ⟨hj, hx ▸ hxvalues⟩
  · intro i j x y hx hy
    obtain ⟨hi, rfl⟩ := eq_of_get ha hx
    obtain ⟨hj, rfl⟩ := eq_of_get ha hy
    exact (Assignment.branches_lt_iff hi hj).symm
  · refine ⟨_, supply_eq ha, ?_⟩
    rw [List.range_eq_range']
    simpa using Supply.items_eq order 0 (2 ^ order.length)
  · intro i hi
    exact ⟨_, get_of_out ha hi, rfl⟩

/-- Of the assignments to two names every second one, backwards from the last. -/
theorem enumerates_two_backwards :
    let s : Slice := ⟨some (-1), none, some (-2)⟩
    ["A", "B"].Nodup ∧ ["A", "B"].length ≤ 62 ∧ s.step ≠ some 0 ∧
    ∃ a, ofOrder ["A", "B"] = .ok a ∧
      a.slice s = .ok [[("A", true), ("B", true)], [("A", false), ("B", true)]] := by
  intro s
  have hnodup : ["A", "B"].Nodup := by decide
  have hlength : ["A", "B"].length ≤ 62 := by decide
  have hstep : s.step ≠ some 0 := by decide
  obtain ⟨a, ha, items, hitems, -, -, -, -, hfirsts, -, -, hslice⟩ := enumerates hnodup hlength
  refine ⟨hnodup, hlength, hstep, a, ha, ?_⟩
  cases ha
  have hall : items = [[("A", false), ("B", false)], [("A", false), ("B", true)],
      [("A", true), ("B", false)], [("A", true), ("B", true)]] := by
    have hfirst := hfirsts 4
    rw [List.take_of_length_le (show items.length ≤ 4 from Nat.le_of_eq hitems)] at hfirst
    exact (Except.ok.inj hfirst).symm
  rw [hslice s hstep, hall]
  decide +kernel

end Assignments

end PropDiagram
