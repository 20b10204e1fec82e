set_option autoImplicit false

/-! # Maps in insertion order

A finite map that remembers the order in which its keys were first inserted. Inserting a key again
replaces its value and leaves the key in its place. The whole interface to a map is the list of its
keys and the look-up: `keys_insert` and `get?_insert` say what insertion does to either. -/

namespace PropDiagram

/-- A map from keys to values, with its entries in the order of insertion. -/
structure OrderedMap (κ ν : Type) where
  entries : Array (κ × ν)
  distinct : (entries.toList.map Prod.fst).Nodup

namespace OrderedMap

variable {κ ν : Type} [DecidableEq κ]

/-! ## Reading -/

omit [DecidableEq κ] in
def toList (m : OrderedMap κ ν) : List (κ × ν) := m.entries.toList

omit [DecidableEq κ] in
def keys (m : OrderedMap κ ν) : List κ := m.toList.map Prod.fst

omit [DecidableEq κ] in
def size (m : OrderedMap κ ν) : Nat := m.entries.size

def get? (m : OrderedMap κ ν) (k : κ) : Option ν :=
  (m.entries.find? fun e => e.1 = k).map Prod.snd

def contains (m : OrderedMap κ ν) (k : κ) : Bool := m.entries.any fun e => e.1 = k

/-! ## Writing -/

omit [DecidableEq κ] in
def empty : OrderedMap κ ν := ⟨#[], by simp⟩

theorem map_fst_setIfInBounds {entries : Array (κ × ν)} {k : κ} (v : ν) {i : Nat}
    (hi : entries.findIdx? (fun e => e.1 = k) = some i) :
    ((entries.setIfInBounds i (k, v)).toList).map Prod.fst = entries.toList.map Prod.fst := by
  obtain ⟨hlt, hk, -⟩ := Array.findIdx?_eq_some_iff_getElem.1 hi
  have hki : (entries.toList.map Prod.fst)[i]? = some k := by
    simp [Array.getElem?_eq_getElem hlt, of_decide_eq_true hk]
  rw [Array.toList_setIfInBounds, List.map_set]
  apply List.ext_getElem?
  intro j
  rw [List.getElem?_set]
  split
  · next hij =>
    subst hij
    split
    · exact hki.symm
    · next hge => simp_all
  · rfl

theorem nodup_map_fst_push {entries : Array (κ × ν)} (h : (entries.toList.map Prod.fst).Nodup) {k : κ}
    (v : ν) (hk : entries.findIdx? (fun e => e.1 = k) = none) :
    ((entries.push (k, v)).toList.map Prod.fst).Nodup := by
  rw [Array.toList_push, List.map_append, List.nodup_append]
  refine ⟨h, by simp, ?_⟩
  intro a ha b hb
  obtain ⟨e, he, rfl⟩ := List.mem_map.1 ha
  have hne := Array.findIdx?_eq_none_iff.1 hk e (Array.mem_toList_iff.1 he)
  simp only [List.map_cons, List.map_nil, List.mem_singleton] at hb
  subst hb
  exact of_decide_eq_false hne

/-- Gives the key a value: in the key's place if it has one, else at the end. -/
def insert (m : OrderedMap κ ν) (k : κ) (v : ν) : OrderedMap κ ν :=
  match h : m.entries.findIdx? fun e => e.1 = k with
  | some i => ⟨m.entries.setIfInBounds i (k, v), (map_fst_setIfInBounds v h) ▸ m.distinct⟩
  | none => ⟨m.entries.push (k, v), nodup_map_fst_push m.distinct v h⟩

/-- The map of these entries, inserted one after the other. -/
def ofList (entries : List (κ × ν)) : OrderedMap κ ν :=
  entries.foldl (fun m e => m.insert e.1 e.2) empty

/-- Whether two maps have the same keys, with values related by `same`. The order of insertion does
    not matter. -/
def equivalent (same : ν → ν → Bool) (a b : OrderedMap κ ν) : Bool :=
  a.size == b.size && a.entries.all fun e => (b.get? e.1).any (same e.2)

/-! ## What insertion does -/

theorem get?_eq_toList (m : OrderedMap κ ν) (k : κ) :
    m.get? k = (m.toList.find? fun e => e.1 = k).map Prod.snd := by
  rw [get?, toList, Array.find?_toList]

omit [DecidableEq κ] in
@[simp] theorem keys_empty : (empty : OrderedMap κ ν).keys = [] := rfl

@[simp] theorem get?_empty (k : κ) : (empty : OrderedMap κ ν).get? k = none := rfl

omit [DecidableEq κ] in
theorem nodup_keys (m : OrderedMap κ ν) : m.keys.Nodup := m.distinct

omit [DecidableEq κ] in
theorem length_keys (m : OrderedMap κ ν) : m.keys.length = m.size := by
  simp [keys, toList, size]

theorem keys_insert (m : OrderedMap κ ν) (k : κ) (v : ν) :
    (m.insert k v).keys = if k ∈ m.keys then m.keys else m.keys ++ [k] := by
  unfold insert
  split
  · next i h =>
    have hmem : k ∈ m.keys := by
      obtain ⟨hlt, hk, -⟩ := Array.findIdx?_eq_some_iff_getElem.1 h
      refine List.mem_map.2 ⟨m.entries[i], ?_, of_decide_eq_true hk⟩
      exact Array.mem_toList_iff.2 (Array.getElem_mem hlt)
    rw [if_pos hmem]
    exact map_fst_setIfInBounds v h
  · next h =>
    have hmem : k ∉ m.keys := by
      intro hk
      obtain ⟨e, he, rfl⟩ := List.mem_map.1 hk
      have := Array.findIdx?_eq_none_iff.1 h e (Array.mem_toList_iff.1 he)
      simp at this
    rw [if_neg hmem]
    simp [keys, toList]

theorem get?_insert (m : OrderedMap κ ν) (k : κ) (v : ν) (j : κ) :
    (m.insert k v).get? j = if k = j then some v else m.get? j := by
  unfold insert
  split
  · next i h =>
    obtain ⟨hlt, hk, hfirst⟩ := Array.findIdx?_eq_some_iff_getElem.1 h
    have hk := of_decide_eq_true hk
    have hsplit := List.set_eq_take_append_cons_drop (l := m.entries.toList) (i := i) (a := (k, v))
    have hsame : m.entries.toList
        = m.entries.toList.take i ++ m.entries[i] :: m.entries.toList.drop (i + 1) := by
      have hlt' : i < m.entries.toList.length := by simpa using hlt
      rw [← Array.getElem_toList hlt, List.getElem_cons_drop hlt', List.take_append_drop]
    have hnone : (m.entries.toList.take i).find? (fun e => decide (e.1 = k)) = none := by
      rw [List.find?_eq_none]
      intro e he
      obtain ⟨p, hp, rfl⟩ := List.mem_take_iff_getElem.1 he
      have hpi : p < i := by omega
      simpa using hfirst p hpi
    rw [get?_eq_toList, get?_eq_toList, toList, toList, Array.toList_setIfInBounds, hsplit]
    rw [if_pos (by simpa using hlt), List.find?_append, List.find?_cons]
    by_cases hkj : k = j
    · subst hkj
      simp [hnone]
    · conv => rhs; rw [hsame, List.find?_append, List.find?_cons]
      simp [hk, hkj]
  · next h =>
    rw [get?_eq_toList, get?_eq_toList, toList, toList, Array.toList_push, List.find?_append]
    by_cases hkj : k = j
    · subst hkj
      have hnone : m.entries.toList.find? (fun e => decide (e.1 = k)) = none := by
        rw [List.find?_eq_none]
        intro e he
        simpa using Array.findIdx?_eq_none_iff.1 h e (Array.mem_toList_iff.1 he)
      simp [hnone]
    · simp [hkj]

theorem contains_iff (m : OrderedMap κ ν) (k : κ) : m.contains k = true ↔ k ∈ m.keys := by
  simp only [contains, keys, toList, Array.any_eq_true, decide_eq_true_eq, List.mem_map,
    Array.mem_toList_iff, Array.mem_iff_getElem]
  constructor
  · rintro ⟨i, hi, h⟩
    exact ⟨m.entries[i], ⟨i, hi, rfl⟩, h⟩
  · rintro ⟨e, ⟨i, hi, rfl⟩, h⟩
    exact ⟨i, hi, h⟩

end OrderedMap

end PropDiagram
