import Mathlib.Data.List.Basic
import Mathlib.Data.List.Induction
import Mathlib.Data.List.Nodup

set_option autoImplicit false

/-! # First occurrences

`eraseDups` keeps the first occurrence of every item of a list. An item met again adds nothing, so a
walk that skips what it has seen finds the same items, in the same order, as one that sees
everything. This file says so for lists: `eraseDups` of a longer list extends that of a shorter one,
and neither the images of a list nor the first item with a property depend on its repetitions. -/

namespace PropDiagram

variable {α β : Type} [DecidableEq α] [DecidableEq β]

/-! ## Adding items -/

theorem eraseDups_append_of_subset {l m : List α} (h : ∀ x ∈ m, x ∈ l) :
    (l ++ m).eraseDups = l.eraseDups := by
  have hnone : m.removeAll l = [] := by
    rw [List.removeAll, List.filter_eq_nil_iff]
    intro x hx
    simpa using h x hx
  rw [List.eraseDups_append, hnone, List.eraseDups_nil, List.append_nil]

theorem eraseDups_concat_of_not_mem {l : List α} {a : α} (h : a ∉ l) :
    (l ++ [a]).eraseDups = l.eraseDups ++ [a] := by
  have hone : [a].removeAll l = [a] := by
    rw [List.removeAll, List.filter_eq_self]
    intro x hx
    rw [List.mem_singleton.1 hx]
    simpa using h
  rw [List.eraseDups_append, hone, List.eraseDups_cons]
  simp

theorem eraseDups_concat_of_mem {l : List α} {a : α} (h : a ∈ l) :
    (l ++ [a]).eraseDups = l.eraseDups :=
  eraseDups_append_of_subset fun x hx => by rwa [List.mem_singleton.1 hx]

theorem eraseDups_prefix_append (l m : List α) : l.eraseDups <+: (l ++ m).eraseDups := by
  rw [List.eraseDups_append]
  exact List.prefix_append _ _

/-- What a list adds depends only on the first occurrences before it. -/
theorem eraseDups_append_congr {l l' : List α} (h : l.eraseDups = l'.eraseDups) (m : List α) :
    (l ++ m).eraseDups = (l' ++ m).eraseDups := by
  have hmem : ∀ x, x ∈ l ↔ x ∈ l' := by
    intro x
    rw [← List.mem_eraseDups, h, List.mem_eraseDups]
  have hrest : m.removeAll l = m.removeAll l' := by
    apply List.filter_congr
    intro x _
    simp [hmem x]
  rw [List.eraseDups_append, List.eraseDups_append, h, hrest]

theorem eraseDups_append_eraseDups (l m : List α) :
    (l ++ m.eraseDups).eraseDups = (l ++ m).eraseDups := by
  induction m using List.reverseRecOn with
  | nil => simp
  | append_singleton m a ih =>
      by_cases ha : a ∈ m
      · rw [eraseDups_concat_of_mem ha, ih, ← List.append_assoc,
          eraseDups_concat_of_mem (List.mem_append_right l ha)]
      · rw [eraseDups_concat_of_not_mem ha, ← List.append_assoc, ← List.append_assoc]
        exact eraseDups_append_congr ih _

theorem eraseDups_append_congr_right (l : List α) {m m' : List α}
    (h : m.eraseDups = m'.eraseDups) : (l ++ m).eraseDups = (l ++ m').eraseDups := by
  rw [← eraseDups_append_eraseDups l m, h, eraseDups_append_eraseDups]

/-! ## No repetitions -/

theorem nodup_eraseDups (l : List α) : l.eraseDups.Nodup := by
  induction l using List.reverseRecOn with
  | nil => simp
  | append_singleton l a ih =>
      by_cases ha : a ∈ l
      · rwa [eraseDups_concat_of_mem ha]
      · rw [eraseDups_concat_of_not_mem ha]
        refine ih.append (List.nodup_singleton a) ?_
        rw [List.disjoint_singleton, List.mem_eraseDups]
        exact ha

theorem eraseDups_of_nodup {l : List α} (h : l.Nodup) : l.eraseDups = l := by
  induction l using List.reverseRecOn with
  | nil => simp
  | append_singleton l a ih =>
      rw [List.nodup_append] at h
      have ha : a ∉ l := fun hmem => h.2.2 a hmem a (by simp) rfl
      rw [eraseDups_concat_of_not_mem ha, ih h.1]

theorem eraseDups_eraseDups (l : List α) : l.eraseDups.eraseDups = l.eraseDups :=
  eraseDups_of_nodup (nodup_eraseDups l)

theorem map_eraseDups (f : α → β) (l : List α) :
    (l.eraseDups.map f).eraseDups = (l.map f).eraseDups := by
  induction l using List.reverseRecOn with
  | nil => simp
  | append_singleton l a ih =>
      by_cases ha : a ∈ l
      · have hfa : f a ∈ l.map f := List.mem_map_of_mem ha
        rw [eraseDups_concat_of_mem ha, ih, List.map_append, List.map_singleton,
          eraseDups_concat_of_mem hfa]
      · rw [eraseDups_concat_of_not_mem ha, List.map_append, List.map_append]
        exact eraseDups_append_congr ih _

theorem length_eraseDups_le (l : List α) : l.eraseDups.length ≤ l.length := by
  induction l using List.reverseRecOn with
  | nil => simp
  | append_singleton l a ih =>
      by_cases ha : a ∈ l
      · rw [eraseDups_concat_of_mem ha, List.length_append]
        omega
      · rw [eraseDups_concat_of_not_mem ha, List.length_append, List.length_append]
        omega

omit [DecidableEq β] in
/-- The items with a property are met first in the same order. -/
theorem filter_eraseDups (p : α → Bool) (l : List α) :
    l.eraseDups.filter p = (l.filter p).eraseDups := by
  induction l using List.reverseRecOn with
  | nil => simp
  | append_singleton l a ih =>
      rw [List.filter_append]
      by_cases ha : a ∈ l
      · have hsub : ∀ x ∈ [a].filter p, x ∈ l.filter p := by
          intro x hx
          obtain ⟨hx, hpx⟩ := List.mem_filter.1 hx
          rw [List.mem_singleton.1 hx] at hpx ⊢
          exact List.mem_filter.2 ⟨ha, hpx⟩
        rw [eraseDups_concat_of_mem ha, ih, eraseDups_append_of_subset hsub]
      · rw [eraseDups_concat_of_not_mem ha, List.filter_append, ih]
        cases hp : p a with
        | false => simp [hp]
        | true =>
            have hnew : a ∉ l.filter p := fun hmem => ha (List.mem_of_mem_filter hmem)
            rw [List.filter_cons_of_pos hp, List.filter_nil, eraseDups_concat_of_not_mem hnew]

theorem eraseDups_map_of_injOn {f : α → β} {l : List α}
    (h : ∀ x ∈ l, ∀ y ∈ l, f x = f y → x = y) : (l.map f).eraseDups = l.eraseDups.map f := by
  rw [← map_eraseDups]
  refine eraseDups_of_nodup ((nodup_eraseDups l).map_on fun x hx y hy => ?_)
  exact h x (List.mem_eraseDups.1 hx) y (List.mem_eraseDups.1 hy)

/-! ## The first item with a property -/

theorem find?_eraseDups (p : α → Bool) (l : List α) : l.eraseDups.find? p = l.find? p := by
  induction l using List.reverseRecOn with
  | nil => simp
  | append_singleton l a ih =>
      by_cases ha : a ∈ l
      · rw [eraseDups_concat_of_mem ha, ih, List.find?_append]
        cases hl : l.find? p with
        | some b => rfl
        | none =>
            have hpa := List.find?_eq_none.1 hl a ha
            simp [hpa]
      · rw [eraseDups_concat_of_not_mem ha, List.find?_append, List.find?_append, ih]

omit [DecidableEq α] in
/-- The first item with a property is also the first with any stronger property that it has. -/
theorem find?_eq_some_of_imp {p q : α → Bool} {l : List α} {a : α} (h : l.find? p = some a)
    (ha : q a = true) (himp : ∀ b, q b = true → p b = true) : l.find? q = some a := by
  obtain ⟨-, before, after, rfl, hbefore⟩ := List.find?_eq_some_iff_append.1 h
  refine List.find?_eq_some_iff_append.2 ⟨ha, before, after, rfl, ?_⟩
  intro b hb
  have hnot := hbefore b hb
  rw [Bool.not_eq_true'] at hnot ⊢
  rw [Bool.eq_false_iff] at hnot ⊢
  exact fun hq => hnot (himp b hq)

theorem find?_congr_eraseDups {l l' : List α} (h : l.eraseDups = l'.eraseDups) (p : α → Bool) :
    l.find? p = l'.find? p := by
  rw [← find?_eraseDups, h, find?_eraseDups]

theorem map_congr_eraseDups {l l' : List α} (h : l.eraseDups = l'.eraseDups) (f : α → β) :
    (l.map f).eraseDups = (l'.map f).eraseDups := by
  rw [← map_eraseDups, h, map_eraseDups]

/-! ## Positions -/

theorem idxOf_eraseDups_append {l : List α} {a : α} (h : a ∈ l) (m : List α) :
    (l ++ m).eraseDups.idxOf a = l.eraseDups.idxOf a :=
  ((eraseDups_prefix_append l m).idxOf_eq_of_mem (List.mem_eraseDups.2 h)).symm

/-- Searching the images for the one that stands for an item finds the position of the item. -/
theorem findIdx?_map_of_forall {γ : Type} {l : List α} {f : α → γ} {p : γ → Bool} {a : α}
    (h : ∀ x ∈ l, p (f x) = (x == a)) :
    (l.map f).findIdx? p = if a ∈ l then some (l.idxOf a) else none := by
  induction l with
  | nil => rfl
  | cons x l ih =>
      have hx := h x (List.mem_cons_self)
      have hrest := ih fun y hy => h y (List.mem_cons_of_mem x hy)
      rw [List.map_cons, List.findIdx?_cons, hx, hrest, List.idxOf_cons]
      by_cases hxa : x = a
      · simp [hxa]
      · have hne : (x == a) = false := by simpa using hxa
        by_cases ha : a ∈ l
        · simp [hne, ha]
        · simp [hne, ha, Ne.symm hxa]

end PropDiagram
