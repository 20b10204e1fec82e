import PropDiagram.Diagram.Basic
import PropDiagram.Proofs.Diagram.Shape

set_option autoImplicit false

/-! # Unfolding tables

What a node of a table unfolds to is decided by its entry (`Table.unfold_eq`), so a table that is
extended unfolds its old nodes as before (`Table.unfold_congr`), and a tree that is listed as a
diagram unfolds to itself (`Diagram.tree_ofTree`).

The post-order of an unfolding comes from nodes: `Table.occurrences` lists the node of every
subtree, so a shared node occurs in it as often as its subtree does. -/

namespace PropDiagram

namespace Table

variable {t : Table}

/-! ## One step of unfolding -/

theorem test?_eq_none_of_terminal {u : Nat} {value : Option Bool}
    (h : t.entries[u]? = some (.terminal value)) : t.test? u = none := by
  rw [test?]
  split
  · next name low high htest =>
      rw [h] at htest
      cases htest
  · rfl

theorem test?_eq_none_of_missing {u : Nat} (h : t.entries[u]? = none) : t.test? u = none := by
  rw [test?]
  split
  · next name low high htest =>
      rw [h] at htest
      cases htest
  · rfl

theorem test?_of_entry {u : Nat} {name : Option String} {low high : Nat}
    (h : t.entries[u]? = some (.test name low high)) :
    t.test? u = some (name, ⟨low, (t.ordered u _ h).1⟩, ⟨high, (t.ordered u _ h).2⟩) := by
  rw [test?]
  split
  · next name' low' high' htest =>
      rw [h] at htest
      cases htest
      rfl
  · next hnot => exact absurd h (hnot name low high)

theorem entry_of_test {u : Nat} {name : Option String} {low high : Fin u}
    (h : t.test? u = some (name, low, high)) :
    t.entries[u]? = some (.test name low high) := by
  rw [test?] at h
  split at h
  · next name' low' high' hentry =>
      cases h
      exact hentry
  · cases h

theorem unfold_eq (t : Table) (u : Nat) :
    t.unfold u = match t.entries[u]? with
      | some (.test name low high) => .node name (t.unfold low) (t.unfold high)
      | some (.terminal value) => .leaf value
      | none => .leaf none := by
  rw [unfold]
  cases hentry : t.entries[u]? with
  | none => simp [test?_eq_none_of_missing hentry, value, hentry]
  | some entry =>
      cases entry with
      | terminal value => simp [test?_eq_none_of_terminal hentry, Table.value, hentry]
      | test name low high => simp [test?_of_entry hentry]

theorem unfold_of_test {u : Nat} {name : Option String} {low high : Fin u}
    (h : t.test? u = some (name, low, high)) :
    t.unfold u = .node name (t.unfold low) (t.unfold high) := by
  rw [unfold, h]

theorem unfold_of_not_test {u : Nat} (h : t.test? u = none) :
    t.unfold u = .leaf (t.value u) := by
  rw [unfold, h]

theorem decision?_of_test {u : Nat} {name : Option String} {low high : Fin u}
    (h : t.test? u = some (name, low, high)) :
    t.decision? u = name.map fun x => (x, low, high) := by
  rw [decision?, h]
  cases name <;> rfl

theorem decision?_of_not_test {u : Nat} (h : t.test? u = none) : t.decision? u = none := by
  rw [decision?, h]

/-- A node that unfolds to a proper tree is a test of a literal or a terminal with a truth value. -/
theorem cases_of_proper {u : Nat} (h : (t.unfold u).Proper) :
    (∃ b, t.test? u = none ∧ t.value u = some b ∧ t.unfold u = .leaf (some b)) ∨
    (∃ name, ∃ low high : Fin u, t.test? u = some (some name, low, high) ∧
      t.unfold u = .node (some name) (t.unfold low) (t.unfold high)) := by
  cases htest : t.test? u with
  | none =>
      rw [unfold_of_not_test htest] at h ⊢
      obtain ⟨b, hb⟩ := Option.isSome_iff_exists.1 h
      exact Or.inl ⟨b, rfl, hb, by rw [hb]⟩
  | some test =>
      obtain ⟨name, low, high⟩ := test
      rw [unfold_of_test htest] at h ⊢
      obtain ⟨x, rfl⟩ := Option.isSome_iff_exists.1 h.1
      exact Or.inr ⟨x, low, high, rfl, rfl⟩

theorem entry_of_unfold_leaf {u : Nat} {b : Bool} (h : t.unfold u = .leaf (some b)) :
    t.entries[u]? = some (.terminal (some b)) := by
  rw [unfold_eq] at h
  split at h
  · cases h
  · next value hentry =>
      cases h
      exact hentry
  · cases h

theorem entry_of_unfold_node {u : Nat} {name : Option String} {l r : Tree}
    (h : t.unfold u = .node name l r) :
    ∃ low high, t.entries[u]? = some (.test name low high) ∧ t.unfold low = l ∧
      t.unfold high = r := by
  rw [unfold_eq] at h
  split at h
  · next low high hentry =>
      cases h
      exact ⟨low, high, hentry, rfl, rfl⟩
  · cases h
  · cases h

theorem cases_entry_of_proper {u : Nat} (h : (t.unfold u).Proper) :
    (∃ b, t.entries[u]? = some (.terminal (some b)) ∧ t.unfold u = .leaf (some b)) ∨
    (∃ x low high, t.entries[u]? = some (.test (some x) low high) ∧ low < u ∧ high < u ∧
      t.unfold u = .node (some x) (t.unfold low) (t.unfold high)) := by
  rcases cases_of_proper h with ⟨b, -, -, hleaf⟩ | ⟨x, l, r, -, hnode⟩
  · exact Or.inl ⟨b, entry_of_unfold_leaf hleaf, hleaf⟩
  · obtain ⟨low, high, hentry, hlow, hhigh⟩ := entry_of_unfold_node hnode
    obtain ⟨hltlow, hlthigh⟩ := t.ordered u _ hentry
    exact Or.inr ⟨x, low, high, hentry, hltlow, hlthigh, by rw [hnode, hlow, hhigh]⟩

/-- Tables that agree on a node and everything before it unfold it to the same tree. -/
theorem unfold_congr {t t' : Table} {u : Nat}
    (h : ∀ v, v ≤ u → t.entries[v]? = t'.entries[v]?) : t.unfold u = t'.unfold u := by
  induction u using Nat.strongRecOn with
  | ind u ih =>
      rw [unfold_eq t, unfold_eq t', ← h u (Nat.le_refl u)]
      cases hentry : t.entries[u]? with
      | none => rfl
      | some entry =>
          cases entry with
          | terminal value => rfl
          | test name low high =>
              obtain ⟨hlow, hhigh⟩ := t.ordered u _ hentry
              dsimp only
              rw [ih low hlow fun v hv => h v (by omega), ih high hhigh fun v hv => h v (by omega)]

/-! ## Nodes below a node -/

/-- Whether following tests leads from the node `u` to the node `v`. -/
inductive Reaches (t : Table) : Nat → Nat → Prop
  | refl (u : Nat) : Reaches t u u
  | low {u v : Nat} {name : Option String} {low high : Fin u}
    (h : t.test? u = some (name, low, high)) (hv : Reaches t low v) : Reaches t u v
  | high {u v : Nat} {name : Option String} {low high : Fin u}
    (h : t.test? u = some (name, low, high)) (hv : Reaches t high v) : Reaches t u v

/-- The nodes met in post-order when nothing is remembered: those below the low branch, those below
    the high branch, then the node itself. -/
def occurrences (t : Table) (u : Nat) : List Nat :=
  match t.test? u with
  | some (_, low, high) => t.occurrences low ++ t.occurrences high ++ [u]
  | none => [u]
termination_by u
decreasing_by
  · exact low.isLt
  · exact high.isLt

theorem occurrences_of_test {u : Nat} {name : Option String} {low high : Fin u}
    (h : t.test? u = some (name, low, high)) :
    t.occurrences u = t.occurrences low ++ t.occurrences high ++ [u] := by
  rw [occurrences, h]

theorem occurrences_of_not_test {u : Nat} (h : t.test? u = none) : t.occurrences u = [u] := by
  rw [occurrences, h]

theorem mem_occurrences_iff {u v : Nat} : v ∈ t.occurrences u ↔ t.Reaches u v := by
  constructor
  · intro h
    induction u using Nat.strongRecOn with
    | ind u ih =>
        cases htest : t.test? u with
        | none =>
            rw [occurrences_of_not_test htest, List.mem_singleton] at h
            exact h ▸ .refl v
        | some test =>
            obtain ⟨name, low, high⟩ := test
            rw [occurrences_of_test htest, List.mem_append, List.mem_append,
              List.mem_singleton] at h
            rcases h with (h | h) | rfl
            · exact .low htest (ih low low.isLt h)
            · exact .high htest (ih high high.isLt h)
            · exact .refl v
  · intro h
    induction h with
    | refl u =>
        rw [occurrences]
        split <;> simp
    | low htest _ ih =>
        rw [occurrences_of_test htest]
        simp [ih]
    | high htest _ ih =>
        rw [occurrences_of_test htest]
        simp [ih]

theorem Reaches.trans {u v w : Nat} (h : t.Reaches u v) (h' : t.Reaches v w) : t.Reaches u w := by
  induction h with
  | refl u => exact h'
  | low htest _ ih => exact .low htest (ih h')
  | high htest _ ih => exact .high htest (ih h')

theorem Reaches.le {u v : Nat} (h : t.Reaches u v) : v ≤ u := by
  induction h with
  | refl u => exact Nat.le_refl u
  | @low u v name low high htest _ ih =>
      have := low.isLt
      omega
  | @high u v name low high htest _ ih =>
      have := high.isLt
      omega

theorem map_unfold_occurrences (t : Table) (u : Nat) :
    (t.occurrences u).map t.unfold = (t.unfold u).postorder := by
  induction u using Nat.strongRecOn with
  | ind u ih =>
      cases htest : t.test? u with
      | none =>
          rw [occurrences_of_not_test htest, unfold_of_not_test htest, Tree.postorder,
            List.map_singleton, unfold_of_not_test htest]
      | some test =>
          obtain ⟨name, low, high⟩ := test
          rw [occurrences_of_test htest, unfold_of_test htest, Tree.postorder, List.map_append,
            List.map_append, ih low low.isLt, ih high high.isLt, List.map_singleton,
            unfold_of_test htest]

theorem Reaches.unfold_mem_postorder {u v : Nat} (h : t.Reaches u v) :
    t.unfold v ∈ (t.unfold u).postorder := by
  rw [← map_unfold_occurrences]
  exact List.mem_map_of_mem (mem_occurrences_iff.2 h)

theorem Reaches.proper {u v : Nat} (h : t.Reaches u v) (hu : (t.unfold u).Proper) :
    (t.unfold v).Proper := hu.of_mem_postorder h.unfold_mem_postorder

end Table

/-! ## Trees as diagrams -/

namespace Diagram

theorem getElem?_place (tree : Tree) (entries : Array Entry) :
    entries.size ≤ (place tree entries).1.size ∧
      ∀ v, v < entries.size → (place tree entries).1[v]? = entries[v]? := by
  induction tree generalizing entries with
  | leaf value => exact ⟨Nat.le_refl _, fun v _ => rfl⟩
  | node name low high ihl ihh =>
      obtain ⟨hsizel, hkeepl⟩ := ihl entries
      obtain ⟨hsizeh, hkeeph⟩ := ihh (place low entries).1
      simp only [place, Array.size_push]
      refine ⟨by omega, ?_⟩
      intro v hv
      rw [Array.getElem?_push, if_neg (by omega), hkeeph v (by omega), hkeepl v hv]

/-- A proper tree, listed after the two terminals, unfolds to itself. -/
theorem unfold_place {tree : Tree} (htree : tree.Proper) {entries : Array Entry}
    (h : Ordered entries) (hsize : 2 ≤ entries.size)
    (hfalse : entries[0]? = some (.terminal (some false)))
    (htrue : entries[1]? = some (.terminal (some true))) (t : Table)
    (ht : t.entries = (place tree entries).1) : t.unfold (place tree entries).2 = tree := by
  induction tree generalizing entries t with
  | leaf value =>
      obtain ⟨b, rfl⟩ := Option.isSome_iff_exists.1 htree
      rw [Table.unfold_eq, ht]
      cases b with
      | false => simp [place, terminalPlace, hfalse]
      | true => simp [place, terminalPlace, htrue]
  | node name low high ihl ihh =>
      obtain ⟨hordl, hltl, hlel⟩ := place_ordered low h hsize
      obtain ⟨hordh, hlth, hleh⟩ := place_ordered high hordl (by omega)
      obtain ⟨-, hkeepl⟩ := getElem?_place low entries
      obtain ⟨-, hkeeph⟩ := getElem?_place high (place low entries).1
      have hentries : t.entries = (place high (place low entries).1).1.push
          (.test name (place low entries).2 (place high (place low entries).1).2) := ht
      have hlow : t.unfold (place low entries).2 = low := by
        have hstep := ihl htree.2.1 h hsize hfalse htrue ⟨_, hordl⟩ rfl
        refine (Table.unfold_congr ?_).trans hstep
        intro v hv
        rw [hentries, Array.getElem?_push, if_neg (by omega), hkeeph v (by omega)]
      have hhigh : t.unfold (place high (place low entries).1).2 = high := by
        have hstep := ihh htree.2.2 hordl (by omega) (by rw [hkeepl 0 (by omega), hfalse])
          (by rw [hkeepl 1 (by omega), htrue]) ⟨_, hordh⟩ rfl
        refine (Table.unfold_congr ?_).trans hstep
        intro v hv
        rw [hentries, Array.getElem?_push, if_neg (by omega)]
      have hroot : t.entries[(place high (place low entries).1).1.size]?
          = some (.test name (place low entries).2 (place high (place low entries).1).2) := by
        rw [hentries, Array.getElem?_push, if_pos rfl]
      show t.unfold (place high (place low entries).1).1.size = .node name low high
      rw [Table.unfold_eq, hroot]
      dsimp only
      rw [hlow, hhigh]

theorem tree_ofTree {tree : Tree} (h : tree.Proper) : (ofTree tree).tree = tree :=
  unfold_place h ordered_terminals (Nat.le_refl 2) rfl rfl _ rfl

theorem proper_ofTree {tree : Tree} (h : tree.Proper) : (ofTree tree).tree.Proper := by
  rwa [tree_ofTree h]

end Diagram

end PropDiagram
