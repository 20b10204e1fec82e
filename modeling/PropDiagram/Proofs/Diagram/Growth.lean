import PropDiagram.Diagram.Tree
import PropDiagram.Proofs.Assignment

set_option autoImplicit false

/-! # Growing decision trees

A decision tree grows from a supply of assignments, and its leaves do not know which path leads to
them: each takes the assignment that comes next. That this is the assignment its path spells out is a
matter of counting. Below `bs.length` tests, `2 ^ xs.length` leaves are to come if the names `xs` are
still to be tested, so a subtree takes that many assignments, and the first of them has the number
that continues the branches `bs` by zeros (`Tree.grow_eq_complete`). In all, the leaves of a tree take
exactly the assignments there are (`Tree.grow_supply`). -/

namespace PropDiagram

open Powers

theorem Assignment.number_concat (bs : List Bool) (b : Bool) :
    number (bs ++ [b]) = 2 * number bs + b.toNat := by
  induction bs with
  | nil => simp [number]
  | cons c bs ih =>
      rw [List.cons_append, number, ih, List.length_append, List.length_singleton, Nat.pow_succ,
        number]
      grind

namespace Tree

variable {f : Assignment → Except Fault Bool}

theorem grow_nil {done : List String} {bs : List Bool} (hbs : bs.length = done.length) {stop : Nat}
    (hstop : Assignment.number bs < stop) :
    grow f [] ⟨done, Assignment.number bs, stop⟩
      = (complete f [] (done.zip bs)).map fun t => (t, ⟨done, Assignment.number bs + 1, stop⟩) := by
  rw [grow, Assignments.Supply.take?, if_pos hstop, complete, Assignment.numbered_number hbs]
  dsimp only
  cases f (done.zip bs) <;> rfl

/-- A subtree below the branches `bs` takes the assignments that continue them, and becomes the
    subtree that the paths spell out. -/
theorem grow_eq_complete {done xs : List String} {bs : List Bool} (hbs : bs.length = done.length)
    {stop : Nat} (hstop : (Assignment.number bs + 1) * 2 ^ xs.length ≤ stop) :
    grow f xs ⟨done ++ xs, Assignment.number bs * 2 ^ xs.length, stop⟩
      = (complete f xs (done.zip bs)).map fun t =>
          (t, ⟨done ++ xs, (Assignment.number bs + 1) * 2 ^ xs.length, stop⟩) := by
  induction xs generalizing done bs with
  | nil =>
      have hlt : Assignment.number bs + 1 ≤ stop := by simpa using hstop
      simpa using grow_nil hbs hlt
  | cons x xs ih =>
      have hpow : 2 ^ (x :: xs).length = 2 * 2 ^ xs.length := by
        rw [List.length_cons, Nat.pow_succ, Nat.mul_comm]
      have hdouble : ∀ n, n * 2 ^ (x :: xs).length = 2 * n * 2 ^ xs.length := by
        intro n
        rw [hpow, ← Nat.mul_assoc, Nat.mul_comm n 2]
      -- The high branch goes on where the low branch stopped.
      have hbranch : ∀ b : Bool,
          grow f xs ⟨done ++ x :: xs, (2 * Assignment.number bs + b.toNat) * 2 ^ xs.length, stop⟩
            = (complete f xs (done.zip bs ++ [(x, b)])).map fun t => (t,
                ⟨done ++ x :: xs, (2 * Assignment.number bs + b.toNat + 1) * 2 ^ xs.length, stop⟩) := by
        intro b
        have hlast : (2 * Assignment.number bs + b.toNat + 1) * 2 ^ xs.length ≤ stop := by
          refine Nat.le_trans (Nat.mul_le_mul_right _ ?_) (hdouble _ ▸ hstop)
          have := Bool.toNat_le b
          omega
        rw [← Assignment.number_concat] at hlast ⊢
        have hlength : (bs ++ [b]).length = (done ++ [x]).length := by simp [hbs]
        have hrest := ih hlength hlast
        rwa [List.append_assoc, List.zip_append hbs.symm] at hrest
      have hlow := hbranch false
      have hhigh := hbranch true
      rw [Bool.toNat_false, Nat.add_zero] at hlow
      rw [Bool.toNat_true] at hhigh
      rw [hdouble, hdouble, grow, complete, hlow]
      cases complete f xs (done.zip bs ++ [(x, false)]) with
      | error e => rfl
      | ok low =>
          show (grow f xs _).bind _ = ((complete f xs _).bind _).map _
          rw [hhigh]
          cases complete f xs (done.zip bs ++ [(x, true)]) <;> rfl

/-- The leaves of a tree take all assignments to its names, one each. -/
theorem grow_supply (f : Assignment → Except Fault Bool) (order : List String) :
    grow f order ⟨order, 0, 2 ^ order.length⟩
      = (complete f order []).map fun t => (t, ⟨order, 2 ^ order.length, 2 ^ order.length⟩) := by
  have hempty : ([] : List Bool).length = ([] : List String).length := rfl
  have hall : (Assignment.number [] + 1) * 2 ^ order.length ≤ 2 ^ order.length := by
    simp [Assignment.number]
  simpa [Assignment.number] using grow_eq_complete (f := f) hempty hall

/-- The tree that is grown from all assignments is the one whose paths spell them out. That none are
    left is checked in vain. -/
theorem ofAssignments_eq [DepthLimits] (f : Formula String) (a : Assignments) :
    ofAssignments f a = a.length.bind fun _ => ofFormula f a.order := by
  rw [ofAssignments, Assignments.supply, Assignments.length, ofFormula]
  by_cases hlength : a.order.length < Assignments.lengthDigits
  · rw [if_pos hlength]
    show (grow _ a.order ⟨a.order, 0, 2 ^ a.order.length⟩).bind _ = complete _ a.order []
    rw [grow_supply]
    cases complete (fun a => f.evaluate a.valuation) a.order [] with
    | error e => rfl
    | ok t => simp [Except.map, Except.bind, Assignments.Supply.take?, pure, Except.pure]
  · rw [if_neg hlength]
    rfl

end Tree

end PropDiagram
