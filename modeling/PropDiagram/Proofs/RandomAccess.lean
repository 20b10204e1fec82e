import PropDiagram.Proofs.Enumeration

set_option autoImplicit false

/-! # Random access to assignments

An assignment is computed from its number alone: of `n` names, the one at position `k` has the binary
digit of weight `2 ^ (n - 1 - k)` (`Assignment.getElem?_numbered`). That holds for any number of
names. An index, however, is first compared with the length, and a length of `2 ^ 63` or more cannot
be told. So up to 62 names every index in range gives the assignment that its digits spell, and from
63 names on every index is refused, and so is iteration (`Assignments.access_by_digits`). -/

namespace PropDiagram

open Powers

/-! ## Digits by position -/

namespace Assignment

theorem getElem?_numbered (order : List String) (i k : Nat) : (numbered order i)[k]?
    = order[k]?.map fun name => (name, i.testBit (order.length - 1 - k)) := by
  induction order generalizing k with
  | nil => rfl
  | cons x xs ih =>
      cases k with
      | zero => simp
      | succ k =>
          have hweight : xs.length - (k + 1) = xs.length - 1 - k := by omega
          simp [ih, hweight]

theorem valuation_eq_of_mem {a : Assignment} (hnodup : (a.map Prod.fst).Nodup) {name : String}
    {b : Bool} (h : (name, b) ∈ a) : a.valuation name = some b := by
  induction a with
  | nil => simp at h
  | cons e a ih =>
      obtain ⟨x, c⟩ := e
      rw [List.map_cons, List.nodup_cons] at hnodup
      rcases List.mem_cons.1 h with heq | hmem
      · cases heq
        simp [valuation]
      · have hne : (name == x) = false := by
          rw [beq_eq_false_iff_ne]
          rintro rfl
          exact hnodup.1 (List.mem_map.2 ⟨_, hmem, rfl⟩)
        simpa [valuation, List.lookup_cons, hne] using ih hnodup.2 hmem

theorem valuation_numbered {order : List String} (hnodup : order.Nodup) (i : Nat) {k : Nat}
    {name : String} (hk : order[k]? = some name) :
    (numbered order i).valuation name = some (i.testBit (order.length - 1 - k)) := by
  apply valuation_eq_of_mem (by simpa using hnodup)
  refine List.mem_of_getElem? (i := k) ?_
  rw [getElem?_numbered, hk, Option.map_some]

end Assignment

namespace Assignments

variable {a : Assignments}

/-! ## Lengths that cannot be told -/

theorem length_of_le (ha : lengthDigits ≤ a.order.length) :
    a.length = .error .countlessAssignments :=
  if_neg (Nat.not_lt.2 ha)

/-- The length is judged before the index, so it makes no difference whether that is in range. -/
theorem get_of_le (ha : lengthDigits ≤ a.order.length) (i : Int) :
    a.get i = .error .countlessAssignments := by
  rw [get, length_of_le ha]
  rfl

theorem supply_of_le (ha : lengthDigits ≤ a.order.length) :
    a.supply = .error .countlessAssignments := by
  rw [supply, length_of_le ha]
  rfl

/-! ## Lengths that can be told -/

/-- An index in range gives the assignment with its number, where a negative one counts from the
    end. -/
theorem get_of_inRange (ha : a.order.length < lengthDigits) {i : Int}
    (hlower : -((2 ^ a.order.length : Nat) : Int) ≤ i) (hupper : i < (2 ^ a.order.length : Nat)) :
    a.get i = .ok (Assignment.numbered a.order
      (if i < 0 then i + (2 ^ a.order.length : Nat) else i).toNat) := by
  rw [get_eq ha rfl]
  refine if_pos ?_
  split <;> omega

theorem map_items_eq (ha : a.order.length < lengthDigits) :
    (Supply.items ⟨a.order, 0, 2 ^ a.order.length⟩).map Except.ok
      = (List.range (2 ^ a.order.length)).map fun i : Nat => a.get i := by
  have hitems := Supply.items_eq a.order 0 (2 ^ a.order.length)
  rw [Nat.zero_add, ← List.range_eq_range'] at hitems
  rw [hitems, List.map_map]
  exact List.map_congr_left fun i hi => (get_of_lt ha (List.mem_range.1 hi)).symm

/-- **Random access spells out digits, up to 62 names.** Let `n` be the number of names, which differ
    from each other.

    * If `n` is at most 62, then every index `i` from `- 2 ^ n` to `2 ^ n - 1` gives an assignment to
      exactly these names, in their order, in which the name at position `k` has the binary digit
      `n - 1 - k` of `i`, or of `i + 2 ^ n` if `i` is negative. Iteration gives what the indices give,
      in their order from zero on.
    * If `n` is at least 63, then every index is refused, also those that are in range, and so is
      iteration. -/
theorem access_by_digits {order : List String} (hnodup : order.Nodup) :
    ∃ a, ofOrder order = .ok a ∧
      (order.length ≤ 62 →
        (∀ i : Int, -((2 ^ order.length : Nat) : Int) ≤ i → i < (2 ^ order.length : Nat) →
          ∃ x, a.get i = .ok x ∧ x.map Prod.fst = order ∧
            ∀ k name, order[k]? = some name → x.valuation name = some
              ((if i < 0 then i + (2 ^ order.length : Nat) else i).toNat.testBit
                (order.length - 1 - k))) ∧
        ∃ s, a.supply = .ok s ∧
          s.items.map .ok = (List.range (2 ^ order.length)).map fun i : Nat => a.get i) ∧
      (63 ≤ order.length →
        (∀ i : Int, a.get i = .error .countlessAssignments) ∧
        a.supply = .error .countlessAssignments) := by
  let a : Assignments := ⟨order, hnodup⟩
  refine ⟨a, dif_pos hnodup, fun hlength => ?_, fun hlength => ?_⟩
  · have ha : a.order.length < lengthDigits := Nat.lt_succ_of_le hlength
    refine ⟨fun i hlower hupper => ?_, _, supply_eq ha, map_items_eq ha⟩
    exact ⟨_, get_of_inRange ha hlower hupper, Assignment.map_fst_numbered order _,
      fun k name => Assignment.valuation_numbered hnodup _⟩
  · exact ⟨get_of_le hlength, supply_of_le hlength⟩

/-- With 63 names, not even the index zero gives an assignment. Without the last of them, the last
    index gives the one in which all names are true. -/
theorem access_by_digits_sixtyThree :
    let order := "ABCDEFGHIJKLMNOPQRSTUVWXYZabcdefghijklmnopqrstuvwxyz0123456789_".toList.map
      String.singleton
    order.Nodup ∧ order.length = 63 ∧
    (∃ a, ofOrder order = .ok a ∧ a.get 0 = .error .countlessAssignments) ∧
    order.dropLast.Nodup ∧
    ∃ a, ofOrder order.dropLast = .ok a ∧
      ∃ x, a.get (-1) = .ok x ∧ x.valuation "A" = some true ∧ x.valuation "9" = some true := by
  intro order
  have hnodup : order.Nodup := by decide +kernel
  have hlength : order.length = 63 := by decide +kernel
  have hshorter : order.dropLast.length = 62 := by rw [List.length_dropLast, hlength]
  have hnodup' : order.dropLast.Nodup := hnodup.sublist (List.dropLast_sublist order)
  obtain ⟨a, ha, -, hrefused⟩ := access_by_digits hnodup
  obtain ⟨b, hb, hgiven, -⟩ := access_by_digits hnodup'
  obtain ⟨x, hx, -, hvalues⟩ := (hgiven (Nat.le_of_eq hshorter)).1 (-1) (by simp [hshorter])
    (by simp [hshorter])
  rw [hshorter] at hvalues
  refine ⟨hnodup, hlength, ⟨a, ha, (hrefused (Nat.le_of_eq hlength.symm)).1 0⟩, hnodup', b, hb, x,
    hx, ?_, ?_⟩
  · exact (hvalues 0 "A" (by decide +kernel)).trans (by decide +kernel)
  · exact (hvalues 61 "9" (by decide +kernel)).trans (by decide +kernel)

end Assignments

end PropDiagram
