import Mathlib.Data.List.Perm.Subperm
import PropDiagram.OrderedMap

set_option autoImplicit false

/-! # Entries of ordered maps

A map has one entry for each of its keys, so its entries and its look-up say the same
(`mem_toList_iff`). Maps that count as equivalent have the same keys, and values that count as the
same (`related_of_equivalent`). Entries with different keys, inserted one after the other, keep their
order and their values (`keys_foldl_insert`, `get?_foldl_insert`). -/

namespace PropDiagram.OrderedMap

variable {κ ν : Type} [DecidableEq κ]

theorem get?_eq_none_iff (m : OrderedMap κ ν) (k : κ) : m.get? k = none ↔ k ∉ m.keys := by
  rw [get?_eq_toList, Option.map_eq_none_iff, List.find?_eq_none, keys]
  simp only [decide_eq_true_eq, List.mem_map, not_exists, not_and]

/-- Among entries with different keys, a key finds its entry. -/
theorem mem_iff_find? {entries : List (κ × ν)} (h : (entries.map Prod.fst).Nodup) (k : κ) (v : ν) :
    (k, v) ∈ entries ↔ (entries.find? fun e => e.1 = k).map Prod.snd = some v := by
  induction entries with
  | nil => simp
  | cons e entries ih =>
      rw [List.map_cons, List.nodup_cons] at h
      rw [List.mem_cons, ih h.2, List.find?_cons]
      by_cases hk : e.1 = k
      · subst hk
        have hnone : entries.find? (fun x => decide (x.1 = e.1)) = none := by
          rw [List.find?_eq_none]
          intro x hx heq
          exact h.1 (List.mem_map.2 ⟨x, hx, of_decide_eq_true heq⟩)
        simp [hnone, Prod.ext_iff, eq_comm (a := v)]
      · simp [hk, Prod.ext_iff, Ne.symm hk]

theorem mem_toList_iff (m : OrderedMap κ ν) (k : κ) (v : ν) :
    (k, v) ∈ m.toList ↔ m.get? k = some v := by
  rw [get?_eq_toList]
  exact mem_iff_find? m.distinct k v

theorem flatMap_toList {β : Type} (m : OrderedMap κ ν) (g : ν → List β) :
    (m.toList.flatMap fun e => g e.2) = m.keys.flatMap fun k => ((m.get? k).map g).getD [] := by
  rw [keys, List.flatMap_map]
  refine List.flatMap_congr fun e he => ?_
  rw [(mem_toList_iff m e.1 e.2).1 he]
  rfl

/-! ## Equivalent maps -/

section Equivalence

variable {same : ν → ν → Bool} {a b : OrderedMap κ ν}

theorem mem_keys_iff_of_equivalent (h : a.equivalent same b = true) (k : κ) :
    k ∈ a.keys ↔ k ∈ b.keys := by
  rw [equivalent, Bool.and_eq_true, beq_iff_eq, Array.all_eq_true_iff_forall_mem] at h
  obtain ⟨hsize, hall⟩ := h
  have hsubset : a.keys ⊆ b.keys := by
    intro j hj
    obtain ⟨e, he, rfl⟩ := List.mem_map.1 hj
    have hany := hall e (Array.mem_toList_iff.1 he)
    by_contra hnot
    rw [(get?_eq_none_iff b e.1).2 hnot] at hany
    cases hany
  -- Without repetitions and equally many, the keys of the one are those of the other.
  have hlength : b.keys.length ≤ a.keys.length := by
    rw [length_keys, length_keys]
    exact Nat.le_of_eq hsize.symm
  exact ((List.subperm_of_subset a.nodup_keys hsubset).perm_of_length_le hlength).mem_iff

theorem related_of_equivalent (h : a.equivalent same b = true) {k : κ} {v : ν}
    (hv : a.get? k = some v) : ∃ w, b.get? k = some w ∧ same v w = true := by
  rw [equivalent, Bool.and_eq_true, Array.all_eq_true_iff_forall_mem] at h
  rw [← mem_toList_iff, toList, Array.mem_toList_iff] at hv
  exact (Option.any_eq_true _ _).1 (h.2 _ hv)

/-- If equal values alone count as the same, equivalent maps look up the same. -/
theorem get?_eq_of_equivalent [BEq ν] [LawfulBEq ν] (h : a.equivalent (· == ·) b = true) (k : κ) :
    a.get? k = b.get? k := by
  cases hv : a.get? k with
  | none =>
      rw [get?_eq_none_iff, mem_keys_iff_of_equivalent h] at hv
      exact ((get?_eq_none_iff b k).2 hv).symm
  | some v =>
      obtain ⟨w, hw, hsame⟩ := related_of_equivalent h hv
      rw [hw, eq_of_beq hsame]

end Equivalence

/-! ## Insertion one after the other -/

section Insertion

variable {α : Type} (key : α → κ) (value : α → ν)

theorem keys_foldl_insert (m : OrderedMap κ ν) (xs : List α)
    (h : (m.keys ++ xs.map key).Nodup) :
    (xs.foldl (fun m x => m.insert (key x) (value x)) m).keys = m.keys ++ xs.map key := by
  induction xs generalizing m with
  | nil => simp
  | cons x xs ih =>
      have hx : key x ∉ m.keys := by
        intro hmem
        rw [List.nodup_append] at h
        exact h.2.2 _ hmem (key x) (by simp) rfl
      have hkeys : (m.insert (key x) (value x)).keys = m.keys ++ [key x] := by
        rw [keys_insert, if_neg hx]
      rw [List.foldl_cons, ih, hkeys]
      · simp
      · rw [hkeys]
        simpa using h

theorem get?_foldl_insert (m : OrderedMap κ ν) (xs : List α) (h : (xs.map key).Nodup) (k : κ) :
    (xs.foldl (fun m x => m.insert (key x) (value x)) m).get? k
      = ((xs.find? fun x => key x = k).map value).or (m.get? k) := by
  induction xs generalizing m with
  | nil => simp
  | cons x xs ih =>
      rw [List.map_cons, List.nodup_cons] at h
      rw [List.foldl_cons, ih _ h.2, get?_insert, List.find?_cons]
      by_cases hk : key x = k
      · have hnone : xs.find? (fun y => decide (key y = k)) = none := by
          rw [List.find?_eq_none]
          intro y hy heq
          exact h.1 (List.mem_map.2 ⟨y, hy, (of_decide_eq_true heq).trans hk.symm⟩)
        simp [hk, hnone]
      · simp [hk]

end Insertion

end PropDiagram.OrderedMap
