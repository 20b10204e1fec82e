import PropDiagram.Proofs.Diagram.Unfolding

set_option autoImplicit false

/-! # Post-order with sharing

Going through a diagram in post-order visits a shared node only once, while `Table.occurrences`
meets it wherever it is shared. Both meet the same nodes first in the same order
(`Diagram.nodes_eq`), because a node is finished only after everything below it: a node met again
brings nothing new.

The invariant of a visit is `Table.Visit.Sound`: the marks are those of the finished nodes, and
every finished test comes after its successors. `Table.visit_covers` says what one visit adds. -/

namespace PropDiagram

namespace Table

variable {t : Table}

/-! ## Lists in which tests come after their successors -/

/-- Whether every node of the list belongs to the table and comes after its successors. -/
inductive BottomUp (t : Table) : List Nat → Prop
  | nil : BottomUp t []
  | concat {us : List Nat} {u : Nat} (h : BottomUp t us) (hu : u < t.size)
    (hbranches : ∀ (name : Option String) (low high : Fin u),
      t.test? u = some (name, low, high) → low.val ∈ us ∧ high.val ∈ us) :
    BottomUp t (us ++ [u])

theorem BottomUp.branches {us : List Nat} (h : t.BottomUp us) {u : Nat} (hu : u ∈ us)
    {name : Option String} {low high : Fin u} (htest : t.test? u = some (name, low, high)) :
    low.val ∈ us ∧ high.val ∈ us := by
  induction h with
  | nil => simp at hu
  | @concat us w h hw hbranches ih =>
      rw [List.mem_append, List.mem_singleton] at hu
      rcases hu with hu | rfl
      · obtain ⟨hlow, hhigh⟩ := ih hu
        exact ⟨List.mem_append_left _ hlow, List.mem_append_left _ hhigh⟩
      · obtain ⟨hlow, hhigh⟩ := hbranches name low high htest
        exact ⟨List.mem_append_left _ hlow, List.mem_append_left _ hhigh⟩

theorem BottomUp.mem_of_reaches {us : List Nat} (h : t.BottomUp us) {u v : Nat}
    (huv : t.Reaches u v) (hu : u ∈ us) : v ∈ us := by
  induction huv with
  | refl u => exact hu
  | low htest _ ih => exact ih (h.branches hu htest).1
  | high htest _ ih => exact ih (h.branches hu htest).2

theorem branchesIn_unfold {us : List Nat} {u : Nat}
    (hbranches : ∀ (name : Option String) (low high : Fin u),
      t.test? u = some (name, low, high) → low.val ∈ us ∧ high.val ∈ us) :
    Tree.BranchesIn (us.map t.unfold) (t.unfold u) := by
  cases htest : t.test? u with
  | none =>
      rw [unfold_of_not_test htest]
      trivial
  | some test =>
      obtain ⟨name, low, high⟩ := test
      obtain ⟨hlow, hhigh⟩ := hbranches name low high htest
      rw [unfold_of_test htest]
      exact ⟨List.mem_map_of_mem hlow, List.mem_map_of_mem hhigh⟩

theorem BottomUp.closed {us : List Nat} (h : t.BottomUp us) : Tree.Closed (us.map t.unfold) := by
  induction h with
  | nil =>
      intro s hs
      simp at hs
  | @concat us u h hu hbranches ih =>
      rw [List.map_append, List.map_singleton]
      exact ih.concat (branchesIn_unfold hbranches)

/-! ## Visits -/

/-- The marks are those of the finished nodes, each of which was finished once and after its
    successors. -/
structure Visit.Sound (t : Table) (v : Visit) : Prop where
  size : v.marked.size = t.size
  marked : ∀ u, v.isMarked u = true ↔ u ∈ v.finished.toList
  nodup : v.finished.toList.Nodup
  bottomUp : t.BottomUp v.finished.toList

theorem Visit.sound_none : (Visit.none t.size).Sound t where
  size := by simp [Visit.none]
  marked := by
    intro u
    simp only [Visit.isMarked, Visit.none, Array.getElem?_replicate]
    split <;> simp
  nodup := List.nodup_nil
  bottomUp := .nil

theorem Visit.toList_finish (v : Visit) (u : Nat) :
    (v.finish u).finished.toList = v.finished.toList ++ [u] := by
  simp [Visit.finish]

theorem Visit.Sound.finish {v : Visit} (h : v.Sound t) {u : Nat} (hu : u < t.size)
    (hnew : u ∉ v.finished.toList)
    (hbranches : ∀ (name : Option String) (low high : Fin u), t.test? u = some (name, low, high) →
      low.val ∈ v.finished.toList ∧ high.val ∈ v.finished.toList) :
    (v.finish u).Sound t where
  size := by simp [Visit.finish, h.size]
  marked := by
    intro w
    have hw := h.marked w
    rw [Visit.toList_finish, List.mem_append, List.mem_singleton, ← hw]
    simp only [Visit.isMarked, Visit.finish, Array.getElem?_setIfInBounds]
    by_cases huw : u = w
    · subst huw
      simp [h.size, hu]
    · simp [huw, Ne.symm huw]
  nodup := by
    rw [Visit.toList_finish]
    refine h.nodup.append (List.nodup_singleton u) ?_
    rwa [List.disjoint_singleton]
  bottomUp := by
    rw [Visit.toList_finish]
    exact .concat h.bottomUp hu hbranches

/-- What a visit of `u` makes of the state `v`: it finishes the nodes below `u` that were not
    finished, in the order in which they occur first. -/
structure Visit.Covers (t : Table) (u : Nat) (v v' : Visit) : Prop where
  sound : v'.Sound t
  order : v'.finished.toList = (v.finished.toList ++ t.occurrences u).eraseDups

theorem Visit.Covers.mem_iff {u : Nat} {v v' : Visit} (h : v.Covers t u v') (w : Nat) :
    w ∈ v'.finished.toList ↔ w ∈ v.finished.toList ∨ t.Reaches u w := by
  rw [h.order, List.mem_eraseDups, List.mem_append, mem_occurrences_iff]

theorem Visit.covers_of_marked {u : Nat} {v : Visit} (hv : v.Sound t)
    (hmarked : v.isMarked u = true) : v.Covers t u v where
  sound := hv
  order := by
    have hu := (hv.marked u).1 hmarked
    rw [eraseDups_append_of_subset, eraseDups_of_nodup hv.nodup]
    intro w hw
    exact hv.bottomUp.mem_of_reaches (mem_occurrences_iff.1 hw) hu

theorem Visit.covers_terminal {u : Nat} (hu : u < t.size) {v : Visit} (hv : v.Sound t)
    (hnew : u ∉ v.finished.toList) (htest : t.test? u = Option.none) :
    v.Covers t u (v.finish u) where
  sound := by
    refine hv.finish hu hnew ?_
    intro name low high h
    rw [htest] at h
    simp at h
  order := by
    rw [Visit.toList_finish, occurrences_of_not_test htest, eraseDups_concat_of_not_mem hnew,
      eraseDups_of_nodup hv.nodup]

theorem Visit.covers_test {u : Nat} (hu : u < t.size) {v v₁ v₂ : Visit}
    (hnew : u ∉ v.finished.toList) {name : Option String} {low high : Fin u}
    (htest : t.test? u = some (name, low, high)) (hlow : v.Covers t low v₁)
    (hhigh : v₁.Covers t high v₂) : v.Covers t u (v₂.finish u) := by
  -- Nothing below the branches is the node itself.
  have hnew₂ : u ∉ v₂.finished.toList := by
    rw [hhigh.mem_iff, hlow.mem_iff]
    rintro ((h | h) | h)
    · exact hnew h
    · exact absurd h.le (by omega)
    · exact absurd h.le (by omega)
  have hsound : (v₂.finish u).Sound t := by
    refine hhigh.sound.finish hu hnew₂ ?_
    intro name' low' high' h
    rw [htest] at h
    cases h
    exact ⟨(hhigh.mem_iff _).2 (Or.inl ((hlow.mem_iff _).2 (Or.inr (.refl _)))),
      (hhigh.mem_iff _).2 (Or.inr (.refl _))⟩
  refine ⟨hsound, ?_⟩
  calc (v₂.finish u).finished.toList
      = ((v₂.finish u).finished.toList).eraseDups := (eraseDups_of_nodup hsound.nodup).symm
    _ = (v₂.finished.toList ++ [u]).eraseDups := by rw [Visit.toList_finish]
    _ = (v₁.finished.toList ++ t.occurrences high ++ [u]).eraseDups :=
        eraseDups_append_congr (by rw [hhigh.order, eraseDups_eraseDups]) _
    _ = (v.finished.toList ++ t.occurrences low ++ (t.occurrences high ++ [u])).eraseDups := by
        rw [List.append_assoc]
        exact eraseDups_append_congr (by rw [hlow.order, eraseDups_eraseDups]) _
    _ = (v.finished.toList ++ t.occurrences u).eraseDups := by
        rw [occurrences_of_test htest]
        simp only [List.append_assoc]

theorem visit_covers {u : Nat} (hu : u < t.size) (hproper : (t.unfold u).Proper) {v : Visit}
    (hv : v.Sound t) : v.Covers t u (t.visit u v) := by
  induction u using Nat.strongRecOn generalizing v with
  | ind u ih =>
      rw [visit]
      split
      · next hmarked => exact Visit.covers_of_marked hv hmarked
      · next hnot =>
          have hnew : u ∉ v.finished.toList := by rwa [← hv.marked]
          rcases cases_of_proper hproper with ⟨b, htest, -, -⟩ | ⟨name, low, high, htest, hnode⟩
          · rw [decision?_of_not_test htest]
            exact Visit.covers_terminal hu hv hnew htest
          · rw [decision?_of_test htest]
            rw [hnode] at hproper
            have hlow := ih low low.isLt (by omega) hproper.2.1 hv
            have hhigh := ih high high.isLt (by omega) hproper.2.2 hlow.sound
            exact Visit.covers_test hu hnew htest hlow hhigh

end Table

/-! ## The nodes of a diagram -/

namespace Diagram

variable {d : Diagram}

theorem nodes_covers (h : d.tree.Proper) :
    (Table.Visit.none d.table.size).Covers d.table d.root
      (d.table.visit d.root (Table.Visit.none d.table.size)) :=
  Table.visit_covers d.root_lt h Table.Visit.sound_none

/-- The nodes gone through are those met below the root, each one once. -/
theorem nodes_eq (h : d.tree.Proper) : d.nodes = (d.table.occurrences d.root).eraseDups :=
  (nodes_covers h).order

theorem bottomUp_nodes (h : d.tree.Proper) : d.table.BottomUp d.nodes :=
  (nodes_covers h).sound.bottomUp

theorem mem_nodes_iff (h : d.tree.Proper) (u : Nat) :
    u ∈ d.nodes ↔ d.table.Reaches d.root u := by
  rw [nodes_eq h, List.mem_eraseDups, Table.mem_occurrences_iff]

/-- The trees of the nodes are first met in the post-order of the unfolding. -/
theorem trees_nodes (h : d.tree.Proper) :
    (d.nodes.map d.table.unfold).eraseDups = d.tree.postorder.eraseDups := by
  rw [nodes_eq h, map_eraseDups, Table.map_unfold_occurrences, tree]

end Diagram

end PropDiagram
