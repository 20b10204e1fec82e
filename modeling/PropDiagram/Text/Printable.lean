import PropDiagram.Text.Invisible

set_option autoImplicit false

/-! # Characters with a visible form

A quoted text shows a character as it is only if the character has a visible form of its own. Main
statement: the look-up finds a character without one exactly if some range of the table holds it. -/

namespace PropDiagram.Text

/-- Whether one of the ranges holds the code point. The ranges must increase: the search stops at the
    first range that is not below the code point. -/
def holds : (ranges : List (Nat × Nat)) → (c : Nat) → Bool
  | [], _ => false
  | r :: rs, c => if c ≤ r.2 then r.1 ≤ c else holds rs c

/-- Whether the character is shown as it is. -/
def isVisible (c : Char) : Bool := !holds invisibleRanges c.toNat

/-! ## What the look-up finds -/

theorem wellFormed_tail {r : Nat × Nat} {rs : List (Nat × Nat)} (h : wellFormed (r :: rs) = true) :
    wellFormed rs = true := by
  cases rs with
  | nil => rfl
  | cons s rs =>
    simp only [wellFormed, Bool.and_eq_true] at h
    exact h.2

/-- The first range lies below all the others. -/
theorem lt_of_mem_of_wellFormed {r s : Nat × Nat} {rs : List (Nat × Nat)}
    (h : wellFormed (r :: rs) = true) (hs : s ∈ rs) : r.2 < s.1 := by
  induction rs generalizing r with
  | nil => simp at hs
  | cons t rs ih =>
    have ht := wellFormed_tail h
    simp only [wellFormed, Bool.and_eq_true, decide_eq_true_eq] at h
    rcases List.mem_cons.1 hs with rfl | hs
    · omega
    · have hlt := ih ht hs
      have hle : t.1 ≤ t.2 := by
        cases rs with
        | nil => simp at hs
        | cons u rs =>
          simp only [wellFormed, Bool.and_eq_true, decide_eq_true_eq] at ht
          exact ht.1.1
      omega

theorem holds_iff {ranges : List (Nat × Nat)} (h : wellFormed ranges = true) (c : Nat) :
    holds ranges c = true ↔ ∃ r ∈ ranges, r.1 ≤ c ∧ c ≤ r.2 := by
  induction ranges with
  | nil => simp [holds]
  | cons r rs ih =>
    rw [holds]
    split
    · next hc =>
      constructor
      · intro hr
        exact ⟨r, List.mem_cons_self, of_decide_eq_true hr, hc⟩
      · rintro ⟨s, hs, hle, -⟩
        rcases List.mem_cons.1 hs with rfl | hs
        · exact decide_eq_true hle
        · have := lt_of_mem_of_wellFormed h hs
          omega
    · next hc =>
      rw [ih (wellFormed_tail h)]
      constructor
      · rintro ⟨s, hs, hle⟩
        exact ⟨s, List.mem_cons_of_mem _ hs, hle⟩
      · rintro ⟨s, hs, hle⟩
        rcases List.mem_cons.1 hs with rfl | hs
        · omega
        · exact ⟨s, hs, hle⟩

/-- A character is hidden exactly if a range of the table holds it. -/
theorem isVisible_eq_false_iff (c : Char) :
    isVisible c = false ↔ ∃ r ∈ invisibleRanges, r.1 ≤ c.toNat ∧ c.toNat ≤ r.2 := by
  rw [← holds_iff wellFormed_invisibleRanges, isVisible, Bool.not_eq_false']

/-! ## Samples of the table -/

example : isVisible ' ' = true ∧ isVisible 'é' = true ∧ isVisible '\u0301' = true := by
  decide +kernel

example : isVisible '\n' = false ∧ isVisible '\u00a0' = false ∧ isVisible '\u0378' = false := by
  decide +kernel

end PropDiagram.Text
