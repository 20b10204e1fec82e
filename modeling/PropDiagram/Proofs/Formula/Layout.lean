import Mathlib.Data.List.Basic
import PropDiagram.Proofs.Formula.FirstFault

set_option autoImplicit false

/-! # Formulas laid out in post-order

The rows of a formula (`Formula.layout`) list its nodes in post-order: the operands come from left to
right, then their application, and each row names the rows of the operands. So the rows of a subtree
stand together and its root is the last of them, and apart from the root of the whole each row is the
operand of exactly one other (`Formula.perm_successors_layout`).

That `rows` has the formula from `first` on is said as `f.layout first <+: rows.drop first`. This
passes to the operands, each from its own place on, and every row belongs to some subtree that way
(`Formula.exists_rows`). -/

namespace PropDiagram

/-- What a row of a formula shows: a label, and the numbers of the rows of the operands. -/
structure Placed where
  label : String
  successors : List Nat
deriving DecidableEq, Repr

namespace Formula

variable {op : String} {xs : List (Formula String)} {rows : List Placed} {first : Nat}

/-! ## Nodes -/

theorem size_pos {α : Type} (f : Formula α) : 0 < f.size := by
  cases f with
  | literal a => simp
  | apply op xs =>
      rw [size_apply_eq]
      omega

theorem size_le_sizeAll {α : Type} {x : Formula α} {xs : List (Formula α)} (hx : x ∈ xs) :
    x.size ≤ sizeAll xs := by
  induction xs with
  | nil => cases hx
  | cons y xs ih =>
      rw [sizeAll_cons]
      rcases List.mem_cons.1 hx with rfl | hx
      · exact Nat.le_add_right ..
      · exact Nat.le_trans (ih hx) (Nat.le_add_left ..)

theorem depth_lt_size {α : Type} (f : Formula α) : f.depth < f.size := by
  induction f using induct with
  | leaf a => simp
  | node op xs ih =>
      suffices h : (apply op xs).depth ≤ sizeAll xs by
        rw [size_apply_eq]
        omega
      rw [depth_apply_le_iff]
      intro x hx
      exact Nat.le_trans (ih x hx) (size_le_sizeAll hx)

/-- Whether every connective in the formula has an operand. -/
def hasOperands : Formula String → Bool :=
  fold (fun _ => true) fun _ found => !found.isEmpty && found.all id

@[simp] theorem hasOperands_literal (name : String) : (literal name).hasOperands = true :=
  fold_literal ..

@[simp] theorem hasOperands_apply (op : String) (xs : List (Formula String)) :
    (apply op xs).hasOperands = (!xs.isEmpty && xs.all hasOperands) := by
  simp [hasOperands, fold_apply]

/-! ## Rows -/

/-- The rows of the roots of operands that stand one after the other from `first` on. -/
def roots : List (Formula String) → (first : Nat) → List Nat
  | [], _ => []
  | x :: xs, first => (first + x.size - 1) :: roots xs (first + x.size)

mutual

/-- The nodes of the formula in post-order, as rows numbered from `first` on. -/
def layout : Formula String → (first : Nat) → List Placed
  | literal name, _ => [⟨name, []⟩]
  | apply op xs, first => layoutAll xs first ++ [⟨op, roots xs first⟩]

/-- The nodes of operands, one operand after the other. -/
def layoutAll : List (Formula String) → (first : Nat) → List Placed
  | [], _ => []
  | x :: xs, first => layout x first ++ layoutAll xs (first + x.size)

end

mutual

@[simp] theorem length_layout : ∀ (f : Formula String) (first : Nat),
    (f.layout first).length = f.size
  | literal name, first => by simp [layout]
  | apply op xs, first => by
      rw [layout, List.length_append, length_layoutAll xs first, size_apply_eq]
      rfl

@[simp] theorem length_layoutAll : ∀ (xs : List (Formula String)) (first : Nat),
    (layoutAll xs first).length = sizeAll xs
  | [], first => by simp [layoutAll]
  | x :: xs, first => by simp [layoutAll, length_layout x first, length_layoutAll xs]

end

theorem pairwise_roots (xs : List (Formula String)) (first : Nat) :
    (roots xs first).Pairwise (· < ·) ∧
      ∀ v ∈ roots xs first, first ≤ v ∧ v < first + sizeAll xs := by
  induction xs generalizing first with
  | nil => simp [roots]
  | cons x xs ih =>
      have hpos := x.size_pos
      obtain ⟨hpairwise, hbounds⟩ := ih (first + x.size)
      simp only [roots, sizeAll_cons, List.pairwise_cons, List.forall_mem_cons]
      refine ⟨⟨fun v hv => ?_, hpairwise⟩, by omega, fun v hv => ?_⟩
      · have := hbounds v hv
        omega
      · have := hbounds v hv
        omega

theorem roots_eq_nil_iff : roots xs first = [] ↔ xs = [] := by
  cases xs <;> simp [roots]

/-! ## Every row but the last is an operand once -/

mutual

/-- Among all successors, each row of a formula but its root occurs once. -/
theorem perm_successors_layout : ∀ (f : Formula String) (first : Nat),
    ((f.layout first).flatMap Placed.successors).Perm (List.range' first (f.size - 1))
  | literal name, first => by simp [layout]
  | apply op xs, first => by
      rw [layout, List.flatMap_append, size_apply_eq, Nat.add_sub_cancel]
      simpa using perm_successors_layoutAll xs first

theorem perm_successors_layoutAll : ∀ (xs : List (Formula String)) (first : Nat),
    ((layoutAll xs first).flatMap Placed.successors ++ roots xs first).Perm
      (List.range' first (sizeAll xs))
  | [], first => by simp [layoutAll, roots]
  | x :: xs, first => by
      have hroot : List.range' first (x.size - 1) ++ [first + x.size - 1]
          = List.range' first x.size := by
        have hpos := x.size_pos
        have hconcat := List.range'_1_concat (s := first) (n := x.size - 1)
        rw [Nat.sub_add_cancel hpos, ← Nat.add_sub_assoc hpos] at hconcat
        exact hconcat.symm
      rw [layoutAll, roots, List.flatMap_append, sizeAll_cons, List.append_assoc,
        ← List.range'_append_1, ← hroot, List.append_assoc]
      refine (perm_successors_layout x first).append ?_
      refine List.perm_middle.trans ?_
      exact (perm_successors_layoutAll xs (first + x.size)).cons _

end

/-! ## Operands stand before their application -/

mutual

/-- The operands of a row are in order and stand before it. -/
theorem successors_of_layout : ∀ (f : Formula String) (first : Nat) {i : Nat} {p : Placed},
    (f.layout first)[i]? = some p →
      p.successors.Pairwise (· < ·) ∧ ∀ v ∈ p.successors, v < first + i
  | literal name, first, i, p, h => by
      rw [layout, List.getElem?_singleton] at h
      split at h
      · cases h
        simp
      · cases h
  | apply op xs, first, i, p, h => by
      rw [layout, List.getElem?_append, length_layoutAll] at h
      split at h
      · exact successors_of_layoutAll xs first h
      · next hi =>
          rw [List.getElem?_singleton] at h
          split at h
          · cases h
            obtain ⟨hpairwise, hbounds⟩ := pairwise_roots xs first
            refine ⟨hpairwise, fun v hv => ?_⟩
            have := (hbounds v hv).2
            omega
          · cases h

theorem successors_of_layoutAll : ∀ (xs : List (Formula String)) (first : Nat) {i : Nat}
    {p : Placed}, (layoutAll xs first)[i]? = some p →
      p.successors.Pairwise (· < ·) ∧ ∀ v ∈ p.successors, v < first + i
  | [], first, i, p, h => by simp [layoutAll] at h
  | x :: xs, first, i, p, h => by
      rw [layoutAll, List.getElem?_append, length_layout] at h
      split at h
      · exact successors_of_layout x first h
      · next hi =>
          have hrest := successors_of_layoutAll xs (first + x.size) h
          rwa [show first + x.size + (i - x.size) = first + i by omega] at hrest

end

/-! ## Rows of subtrees -/

theorem append_prefix_iff {α : Type} {as bs cs : List α} :
    as ++ bs <+: cs ↔ as <+: cs ∧ bs <+: cs.drop as.length := by
  constructor
  · rintro ⟨ds, rfl⟩
    refine ⟨⟨bs ++ ds, (List.append_assoc ..).symm⟩, ⟨ds, ?_⟩⟩
    rw [List.append_assoc, List.drop_left]
  · rintro ⟨⟨ds, rfl⟩, hbs⟩
    rw [List.drop_left] at hbs
    exact (List.prefix_append_right_inj as).2 hbs

theorem singleton_prefix_drop_iff {α : Type} {a : α} {cs : List α} {i : Nat} :
    [a] <+: cs.drop i ↔ cs[i]? = some a := by
  rw [List.singleton_prefix_iff_head?_eq_some, List.head?_drop]

theorem rows_apply_iff : (apply op xs).layout first <+: rows.drop first ↔
    layoutAll xs first <+: rows.drop first ∧
      rows[first + sizeAll xs]? = some ⟨op, roots xs first⟩ := by
  rw [layout, append_prefix_iff, length_layoutAll, List.drop_drop, singleton_prefix_drop_iff]

theorem rows_literal_iff {name : String} :
    (literal name).layout first <+: rows.drop first ↔ rows[first]? = some ⟨name, []⟩ := by
  rw [layout, singleton_prefix_drop_iff]

theorem rowsAll_cons_iff {x : Formula String} :
    layoutAll (x :: xs) first <+: rows.drop first ↔
      x.layout first <+: rows.drop first ∧
        layoutAll xs (first + x.size) <+: rows.drop (first + x.size) := by
  rw [layoutAll, append_prefix_iff, length_layout, List.drop_drop]

mutual

/-- Each row of a formula is the root of a subtree, which has its rows there. -/
theorem exists_rows : ∀ (f : Formula String) {first u : Nat},
    f.hasOperands = true → f.layout first <+: rows.drop first →
      first ≤ u → u < first + f.size →
        ∃ (g : Formula String) (below : Nat), g.hasOperands = true ∧
          g.layout below <+: rows.drop below ∧ u + 1 = below + g.size
  | literal name, first, u, hop, hrows, hfirst, hu => by
      rw [size_literal] at hu
      exact ⟨literal name, first, hop, hrows, by rw [size_literal]; omega⟩
  | apply op xs, first, u, hop, hrows, hfirst, hu => by
      have hxs := (rows_apply_iff.1 hrows).1
      rw [size_apply_eq] at hu
      by_cases hroot : u = first + sizeAll xs
      · refine ⟨apply op xs, first, hop, hrows, ?_⟩
        rw [size_apply_eq]
        omega
      · rw [hasOperands_apply, Bool.and_eq_true] at hop
        exact exists_rowsAll xs hop.2 hxs hfirst (by omega)

theorem exists_rowsAll : ∀ (xs : List (Formula String)) {first u : Nat},
    xs.all hasOperands = true → layoutAll xs first <+: rows.drop first →
      first ≤ u → u < first + sizeAll xs →
        ∃ (g : Formula String) (below : Nat), g.hasOperands = true ∧
          g.layout below <+: rows.drop below ∧ u + 1 = below + g.size
  | [], first, u, _, _, hfirst, hu => by
      rw [sizeAll_nil] at hu
      omega
  | x :: xs, first, u, hop, hrows, hfirst, hu => by
      rw [List.all_cons, Bool.and_eq_true] at hop
      rw [rowsAll_cons_iff] at hrows
      rw [sizeAll_cons] at hu
      by_cases hx : u < first + x.size
      · exact exists_rows x hop.1 hrows.1 hfirst hx
      · exact exists_rowsAll xs hop.2 hrows.2 (by omega) (by omega)

end

end Formula

end PropDiagram
