import PropDiagram.Proofs.Diagram.Growth
import PropDiagram.Proofs.Diagram.Restoring

set_option autoImplicit false

/-! # Decision trees of formulas

The decision tree over an order of names tests all of them on every path, in their order
(`Tree.Tests`), and its branches lead to the value of the formula under the assignment that they
spell out (`Diagram.tests_of_build`).

The key of reduction leaves out the names. In a complete tree this merges nothing that differs: the
height of a subtree tells how much of the order is left, so its shape gives back the names
(`Tree.Tests.eq_of_erased_eq`). The reduced diagram unfolds to the decision tree itself
(`Diagram.restored_of_tests`). -/

namespace PropDiagram

open Powers

namespace Tree

/-! ## Complete trees -/

/-- Whether every path of the tree tests the names in order and ends in a truth value. -/
def Tests : (order : List String) → Tree → Prop
  | [], leaf value => value.isSome = true
  | x :: xs, node name low high => name = some x ∧ Tests xs low ∧ Tests xs high
  | _, _ => False

/-- The value that the branches lead to, `low` for false and `high` for true. -/
def along : Tree → (branches : List Bool) → Option Bool
  | leaf value, _ => value
  | node _ low high, b :: bs => if b then high.along bs else low.along bs
  | node _ _ _, [] => none

/-- The value that the tree leads to when the literals have these values. -/
def follow (values : Valuation) : Tree → Except Fault (Option Bool)
  | leaf value => .ok value
  | node name low high =>
    match name.bind values with
    | some true => high.follow values
    | some false => low.follow values
    | none => .error (.unbound name)

theorem Tests.exists_leaf {t : Tree} (h : t.Tests []) : ∃ b, t = leaf (some b) := by
  cases t with
  | leaf value =>
      obtain ⟨b, rfl⟩ := Option.isSome_iff_exists.1 h
      exact ⟨b, rfl⟩
  | node name low high => exact absurd h id

theorem Tests.exists_node {x : String} {xs : List String} {t : Tree} (h : t.Tests (x :: xs)) :
    ∃ low high, t = node (some x) low high ∧ low.Tests xs ∧ high.Tests xs := by
  cases t with
  | leaf value => exact absurd h id
  | node name low high =>
      obtain ⟨rfl, hlow, hhigh⟩ := h
      exact ⟨low, high, rfl, hlow, hhigh⟩

theorem Tests.proper {order : List String} {t : Tree} (h : t.Tests order) : t.Proper := by
  induction order generalizing t with
  | nil =>
      obtain ⟨b, rfl⟩ := h.exists_leaf
      rfl
  | cons x xs ih =>
      obtain ⟨low, high, rfl, hlow, hhigh⟩ := h.exists_node
      exact ⟨rfl, ih hlow, ih hhigh⟩

theorem Tests.exists_suffix {order : List String} {t : Tree} (h : t.Tests order) {s : Tree}
    (hs : s ∈ t.postorder) : ∃ xs, xs <:+ order ∧ s.Tests xs := by
  induction order generalizing t with
  | nil =>
      obtain ⟨b, rfl⟩ := h.exists_leaf
      rw [postorder, List.mem_singleton] at hs
      rw [hs]
      exact ⟨[], List.suffix_refl _, rfl⟩
  | cons x xs ih =>
      obtain ⟨low, high, rfl, hlow, hhigh⟩ := h.exists_node
      simp only [postorder, List.mem_append, List.mem_singleton] at hs
      rcases hs with (hs | hs) | rfl
      · obtain ⟨ys, hys, htests⟩ := ih hlow hs
        exact ⟨ys, hys.trans (List.suffix_cons x xs), htests⟩
      · obtain ⟨ys, hys, htests⟩ := ih hhigh hs
        exact ⟨ys, hys.trans (List.suffix_cons x xs), htests⟩
      · exact ⟨x :: xs, List.suffix_refl _, h⟩

/-! ## Shapes of complete trees -/

/-- The shape of a complete tree tells how many names it tests. -/
theorem Tests.length_eq_of_erased_eq {xs ys : List String} {s t : Tree} (hs : s.Tests xs)
    (ht : t.Tests ys) (h : s.erased = t.erased) : xs.length = ys.length := by
  induction xs generalizing s t ys with
  | nil =>
      obtain ⟨b, rfl⟩ := hs.exists_leaf
      cases ys with
      | nil => rfl
      | cons y ys =>
          obtain ⟨low, high, rfl, -, -⟩ := ht.exists_node
          cases h
  | cons x xs ih =>
      obtain ⟨low, high, rfl, hlow, -⟩ := hs.exists_node
      cases ys with
      | nil =>
          obtain ⟨b, rfl⟩ := ht.exists_leaf
          cases h
      | cons y ys =>
          obtain ⟨low', high', rfl, hlow', -⟩ := ht.exists_node
          rw [erased, erased, Shape.test.injEq] at h
          rw [List.length_cons, List.length_cons, ih hlow hlow' h.1]

theorem Tests.eq_of_erased_eq {xs : List String} {s t : Tree} (hs : s.Tests xs) (ht : t.Tests xs)
    (h : s.erased = t.erased) : s = t := by
  induction xs generalizing s t with
  | nil =>
      obtain ⟨b, rfl⟩ := hs.exists_leaf
      obtain ⟨c, rfl⟩ := ht.exists_leaf
      rw [erased, erased, Shape.terminal.injEq] at h
      rw [h]
  | cons x xs ih =>
      obtain ⟨low, high, rfl, hlow, hhigh⟩ := hs.exists_node
      obtain ⟨low', high', rfl, hlow', hhigh'⟩ := ht.exists_node
      rw [erased, erased, Shape.test.injEq] at h
      rw [ih hlow hlow' h.1, ih hhigh hhigh' h.2]

/-- Subtrees of a complete tree with the same shape are the same, whatever their level. -/
theorem Tests.subtree_eq_of_erased_eq {order : List String} {t : Tree} (h : t.Tests order) :
    ∀ r ∈ t.postorder, ∀ s ∈ t.postorder, r.erased = s.erased → r = s := by
  intro r hr s hs herased
  obtain ⟨xs, hxs, htestsr⟩ := h.exists_suffix hr
  obtain ⟨ys, hys, htestss⟩ := h.exists_suffix hs
  have hlength := htestsr.length_eq_of_erased_eq htestss herased
  have hsuffix : xs <:+ ys := List.suffix_of_suffix_length_le hxs hys (Nat.le_of_eq hlength)
  have heq : xs = ys := hsuffix.eq_of_length hlength
  exact htestsr.eq_of_erased_eq (heq ▸ htestss) herased

theorem Tests.entry_erased {order : List String} {t : Tree} (h : t.Tests order) {s : Tree}
    (hs : s ∈ t.postorder) :
    entry false t.postorder s.erased = entryAmong false (shapes false t.postorder) s := by
  cases s with
  | leaf value => rfl
  | node name low high =>
      obtain ⟨r, hr, hrep, -, hshape⟩ :=
        (closed_postorder t).exists_representative (erased_mem_shapes hs)
      rw [shape_false] at hshape
      rw [h.subtree_eq_of_erased_eq r hr _ hs hshape] at hrep
      rw [erased] at hrep ⊢
      rw [entry, hrep, entryAmong, shape_false, shape_false]
      rfl

/-! ## Values of complete trees -/

/-- Complete trees over the same names are equal if they have the same values. -/
theorem Tests.ext {order : List String} {s t : Tree} (hs : s.Tests order) (ht : t.Tests order)
    (h : ∀ bs : List Bool, bs.length = order.length → s.along bs = t.along bs) : s = t := by
  induction order generalizing s t with
  | nil =>
      obtain ⟨b, rfl⟩ := hs.exists_leaf
      obtain ⟨c, rfl⟩ := ht.exists_leaf
      have hvalue : some b = some c := h [] rfl
      rw [hvalue]
  | cons x xs ih =>
      obtain ⟨low, high, rfl, hlow, hhigh⟩ := hs.exists_node
      obtain ⟨low', high', rfl, hlow', hhigh'⟩ := ht.exists_node
      have heqlow : low = low' := ih hlow hlow' fun bs hbs => h (false :: bs) (by simp [hbs])
      have heqhigh : high = high' := ih hhigh hhigh' fun bs hbs => h (true :: bs) (by simp [hbs])
      rw [heqlow, heqhigh]

/-- A complete tree asks for the names in order, and leads to the value at the branches that the
    names spell out. -/
theorem Tests.follow_eq {order : List String} {t : Tree} (h : t.Tests order)
    (values : Valuation) :
    t.follow values = match order.find? fun x => (values x).isNone with
      | some x => .error (.unbound (some x))
      | none => .ok (t.along (values.branches order)) := by
  induction order generalizing t with
  | nil =>
      obtain ⟨b, rfl⟩ := h.exists_leaf
      rfl
  | cons x xs ih =>
      obtain ⟨low, high, rfl, hlow, hhigh⟩ := h.exists_node
      rw [follow, Option.bind_some, List.find?_cons]
      cases hx : values x with
      | none => rfl
      | some b =>
          cases b with
          | false => simp [ih hlow, Valuation.branches, along, hx]
          | true => simp [ih hhigh, Valuation.branches, along, hx]

/-- Completing a tree tests the names left, and finds the value of `f` at the end of every path. -/
theorem tests_of_complete {f : Assignment → Except Fault Bool} {order : List String}
    {assigned : Assignment} {t : Tree} (h : complete f order assigned = .ok t) :
    t.Tests order ∧ ∀ bs : List Bool, bs.length = order.length →
      ∃ b, f (assigned ++ order.zip bs) = .ok b ∧ t.along bs = some b := by
  induction order generalizing assigned t with
  | nil =>
      rw [complete] at h
      cases hf : f assigned with
      | error e =>
          rw [hf] at h
          cases h
      | ok b =>
          rw [hf] at h
          cases h
          refine ⟨rfl, ?_⟩
          intro bs _
          rw [List.zip_nil_left, List.append_nil]
          exact ⟨b, hf, rfl⟩
  | cons x xs ih =>
      obtain ⟨low, hlow, h⟩ := except_bind_eq_ok_iff.1 h
      obtain ⟨high, hhigh, h⟩ := except_bind_eq_ok_iff.1 h
      cases h
      obtain ⟨htestslow, hvaluelow⟩ := ih hlow
      obtain ⟨htestshigh, hvaluehigh⟩ := ih hhigh
      refine ⟨⟨rfl, htestslow, htestshigh⟩, ?_⟩
      intro bs hbs
      cases bs with
      | nil => simp at hbs
      | cons b bs =>
          have hlength : bs.length = xs.length := by simpa using hbs
          rw [List.zip_cons_cons, along]
          cases b with
          | false => simpa using hvaluelow bs hlength
          | true => simpa using hvaluehigh bs hlength

theorem exists_complete {f : Assignment → Except Fault Bool} {order : List String}
    {assigned : Assignment}
    (h : ∀ bs : List Bool, bs.length = order.length → ∃ b, f (assigned ++ order.zip bs) = .ok b) :
    ∃ t, complete f order assigned = .ok t := by
  induction order generalizing assigned with
  | nil =>
      obtain ⟨b, hb⟩ := h [] rfl
      rw [List.zip_nil_left, List.append_nil] at hb
      exact ⟨leaf (some b), by rw [complete, hb]; rfl⟩
  | cons x xs ih =>
      have hbranch : ∀ b : Bool, ∃ t, complete f xs (assigned ++ [(x, b)]) = .ok t := by
        intro b
        refine ih fun bs hbs => ?_
        obtain ⟨c, hc⟩ := h (b :: bs) (by simp [hbs])
        exact ⟨c, by simpa using hc⟩
      obtain ⟨low, hlow⟩ := hbranch false
      obtain ⟨high, hhigh⟩ := hbranch true
      refine ⟨node (some x) low high, ?_⟩
      rw [complete, hlow, hhigh]
      rfl

theorem exists_eq_error_of_complete {f : Assignment → Except Fault Bool} {order : List String}
    {assigned : Assignment} {e : Fault} (h : complete f order assigned = .error e) :
    ∃ a, f a = .error e := by
  induction order generalizing assigned with
  | nil =>
      rw [complete] at h
      cases hf : f assigned with
      | ok b =>
          rw [hf] at h
          cases h
      | error e' =>
          rw [hf] at h
          cases h
          exact ⟨assigned, hf⟩
  | cons x xs ih =>
      rcases except_bind_eq_error_iff.1 h with hlow | ⟨low, -, h⟩
      · exact ih hlow
      · rcases except_bind_eq_error_iff.1 h with hhigh | ⟨high, -, h⟩
        · exact ih hhigh
        · cases h

theorem complete_eq_error {f : Assignment → Except Fault Bool} {order : List String}
    {assigned : Assignment} {e : Fault}
    (h : ∀ bs : List Bool, bs.length = order.length → f (assigned ++ order.zip bs) = .error e) :
    complete f order assigned = .error e := by
  induction order generalizing assigned with
  | nil =>
      have he := h [] rfl
      rw [List.zip_nil_left, List.append_nil] at he
      rw [complete, he]
      rfl
  | cons x xs ih =>
      have hlow : complete f xs (assigned ++ [(x, false)]) = .error e := by
        refine ih fun bs hbs => ?_
        simpa using h (false :: bs) (by simp [hbs])
      rw [complete, hlow]
      rfl

end Tree

/-! ## Following diagrams -/

theorem Table.follow_eq (t : Table) (values : Valuation) (u : Nat) :
    t.follow values u = (t.unfold u).follow values := by
  induction u using Nat.strongRecOn with
  | ind u ih =>
      rw [Table.follow]
      cases htest : t.test? u with
      | none =>
          rw [Table.unfold_of_not_test htest]
          rfl
      | some test =>
          obtain ⟨name, low, high⟩ := test
          rw [Table.unfold_of_test htest, Tree.follow]
          dsimp only
          cases name.bind values with
          | none => rfl
          | some b =>
              cases b with
              | false => exact ih low low.isLt
              | true => exact ih high high.isLt

namespace Diagram

variable {d : Diagram}

theorem evaluate_reduce (h : d.tree.Proper) (e : Bool) (values : Valuation) :
    (d.reduce e).evaluate values
      = (Tree.restored e d.tree.postorder (d.tree.shape e)).follow values := by
  obtain ⟨p, hplace, hp⟩ := place?_reduce h e
  rw [Reduced.evaluate, hplace]
  dsimp only
  rw [Table.follow_eq, hp, unfold_identity h e (shape_mem_shapes_tree d e)]

/-- Reducing a complete tree loses nothing. -/
theorem restored_of_tests {order : List String} (h : d.tree.Tests order) :
    Tree.restored false d.tree.postorder (d.tree.shape false) = d.tree := by
  rw [Tree.shape_false]
  exact (Tree.closed_postorder _).restored_erased h.subtree_eq_of_erased_eq
    (Tree.self_mem_postorder _)

theorem tree_eq_of_reduce_eq {order order' : List String} {d' : Diagram}
    (h : d.tree.Tests order) (h' : d'.tree.Tests order')
    (heq : d.reduce false = d'.reduce false) : d.tree = d'.tree := by
  obtain ⟨r, hr, htree⟩ := exists_toDiagram h.proper false
  obtain ⟨r', hr', htree'⟩ := exists_toDiagram h'.proper false
  rw [heq, hr'] at hr
  cases hr
  rw [← restored_of_tests h, ← restored_of_tests h', ← htree, ← htree']

/-! ## The size of complete trees -/

theorem completeSize_add_one (n : Nat) : completeSize n + 1 = 2 ^ (n + 1) := by
  induction n with
  | zero => rfl
  | succ n ih =>
      rw [completeSize, Nat.pow_succ, ← ih]
      omega

theorem isWritable_completeSize_of_pow {m n : Nat} (hfits : 2 ^ m ≤ Nat.pow 10 Text.digitLimit)
    (hexceeds : Nat.pow 10 Text.digitLimit < 2 ^ (m + 1)) :
    Text.isWritable (completeSize n) = true ↔ n < m := by
  rw [Text.isWritable, decide_eq_true_iff, Int.natAbs_natCast, ← Nat.add_one_le_iff,
    completeSize_add_one]
  constructor
  · intro hle
    have hlt : 2 ^ (n + 1) < 2 ^ (m + 1) := Nat.lt_of_le_of_lt hle hexceeds
    exact Nat.lt_of_succ_lt_succ ((Nat.pow_lt_pow_iff_right (Nat.lt_succ_self 1)).1 hlt)
  · intro hlt
    exact Nat.le_trans (Nat.pow_le_pow_right (Nat.le_succ 1) hlt) hfits

/-- The size of a complete tree can be written for up to 14283 literals. -/
theorem isWritable_completeSize_iff (n : Nat) :
    Text.isWritable (completeSize n) = true ↔ n < 14284 :=
  isWritable_completeSize_of_pow (by decide +kernel) (by decide +kernel)

theorem not_unwritable {limits : Limits} {n : Nat} (h : n < Assignments.lengthDigits) :
    ¬(limits.warn < n ∧ Text.isWritable (completeSize n) = false) := by
  rintro ⟨-, hsize⟩
  have hlt : n < 14284 := by
    rw [Assignments.lengthDigits] at h
    omega
  rw [(isWritable_completeSize_iff n).2 hlt] at hsize
  cases hsize

/-! ## The diagram of a formula -/

/-- What is done with the assignments to an order may use that they have this order. -/
theorem bind_ofOrder_congr {α : Type} {order : List String} {f g : Assignments → Except Fault α}
    (h : ∀ a, a.order = order → f a = g a) :
    (Assignments.ofOrder order).bind f = (Assignments.ofOrder order).bind g := by
  rw [Assignments.ofOrder]
  split
  · exact h _ rfl
  · rfl

theorem outcome_build [DepthLimits] (f : Formula String) (order : Option (List String))
    (limits : Limits) :
    (build f order limits).outcome =
      if limits.most < (order.getD f.names).length then
        .error (.tooManyLiterals (order.getD f.names).length limits.most)
      else if limits.warn < (order.getD f.names).length ∧
          Text.isWritable (completeSize (order.getD f.names).length) = false then
        .error .numberTooLong
      else (Assignments.ofOrder (order.getD f.names)).bind fun assignments =>
        assignments.length.bind fun _ =>
          (Tree.ofFormula f (order.getD f.names)).bind fun t => .ok (ofTree t) := by
  rw [build]
  dsimp only
  generalize order.getD f.names = names
  have hgrow : ((Assignments.ofOrder names).bind fun a =>
        (Tree.ofAssignments f a).bind fun t => .ok (ofTree t))
      = (Assignments.ofOrder names).bind fun a => a.length.bind fun _ =>
          (Tree.ofFormula f names).bind fun t => .ok (ofTree t) := by
    refine bind_ofOrder_congr fun a ha => ?_
    rw [Tree.ofAssignments_eq, ha]
    cases a.length <;> rfl
  by_cases hmost : limits.most < names.length
  · rw [if_pos hmost, if_pos hmost, Traced.outcome_bind]
    rfl
  · rw [if_neg hmost, if_neg hmost, ← hgrow]
    by_cases hwarn : limits.warn < names.length
    · rw [if_pos hwarn, Traced.outcome_bind, warnOfSize]
      cases hsize : Text.isWritable (completeSize names.length) with
      | true =>
          rw [if_pos rfl, Traced.outcome_report, if_neg fun h => Bool.noConfusion h.2]
          simp only [Except.bind, Traced.outcome_bind, Traced.outcome_ofExcept,
            Traced.outcome_report, Traced.outcome_pure]
      | false =>
          rw [if_neg Bool.false_ne_true, Traced.outcome_fail, if_pos ⟨hwarn, rfl⟩]
          rfl
    · rw [if_neg hwarn, if_neg fun h => hwarn h.1]
      simp only [Traced.outcome_bind, Traced.outcome_ofExcept, Traced.outcome_report,
        Traced.outcome_pure]
      rfl

/-- What building a diagram requires, and what it gives. -/
theorem build_eq_ok_iff [DepthLimits] {f : Formula String} {order : Option (List String)}
    {limits : Limits} :
    (build f order limits).outcome = .ok d ↔
      ((order.getD f.names).length : Int) ≤ limits.most ∧ (order.getD f.names).Nodup ∧
        (order.getD f.names).length < Assignments.lengthDigits ∧
        ∃ t, Tree.ofFormula f (order.getD f.names) = .ok t ∧ d = ofTree t := by
  rw [outcome_build]
  generalize order.getD f.names = names
  by_cases hmost : limits.most < names.length
  · rw [if_pos hmost]
    simp only [reduceCtorEq, false_iff, not_and]
    intro hle
    omega
  · rw [if_neg hmost]
    by_cases hlength : names.length < Assignments.lengthDigits
    · rw [if_neg (not_unwritable hlength), Assignments.ofOrder]
      by_cases hnodup : names.Nodup
      · rw [dif_pos hnodup, Except.bind, Assignments.length, if_pos hlength, Except.bind,
          except_bind_eq_ok_iff]
        simp [hnodup, hlength, eq_comm]
        omega
      · simp [hnodup, Except.bind]
    · refine iff_of_false ?_ fun h => hlength h.2.2.1
      split
      · simp
      · rw [Assignments.ofOrder]
        split <;> simp [Assignments.length, hlength, Except.bind]

/-- The diagram of a formula tests the names in order, and its branches lead to the values of the
    formula. -/
theorem tests_of_build [DepthLimits] {f : Formula String} {order : Option (List String)}
    {limits : Limits} (h : (build f order limits).outcome = .ok d) :
    (order.getD f.names).Nodup ∧ d.tree.Tests (order.getD f.names) ∧
      ∀ bs : List Bool, bs.length = (order.getD f.names).length →
        ∃ b, f.evaluate (Assignment.valuation ((order.getD f.names).zip bs)) = .ok b ∧
          d.tree.along bs = some b := by
  obtain ⟨-, hnodup, -, t, ht, rfl⟩ := build_eq_ok_iff.1 h
  obtain ⟨htests, hvalues⟩ := Tree.tests_of_complete ht
  rw [tree_ofTree htests.proper]
  exact ⟨hnodup, htests, hvalues⟩

end Diagram

end PropDiagram
