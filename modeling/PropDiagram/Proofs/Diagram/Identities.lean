import PropDiagram.Diagram.Reduction
import PropDiagram.Proofs.Diagram.Postorder

set_option autoImplicit false

/-! # What reduction identifies

The identities that reduction gives out stand for shapes. The invariant is `Reduction.Reflects`:
after some nodes, the entries are the entries of the shapes of their unfoldings, and every node has
the place of its shape as its identity. A node that is eliminated has the shape of its branches, so
it adds no entry; any other node finds the entry of its shape, or adds it.

The reduced diagram follows from the unfolding alone: its entries are those of the shapes in
post-order (`Diagram.entries_reduce`), and so it does not depend on what the diagram shares. -/

namespace PropDiagram

/-! ## Keys -/

namespace Tree

/-- The key of a tree is that of the entry of its shape, and of no other entry. -/
theorem sameKey_entryAmong {e : Bool} {ts : List Tree} (hts : Closed ts) {t : Tree}
    (hbranches : BranchesIn ts t) (hkept : t.isKept e = true) {s : Shape}
    (hs : s ∈ shapes e ts) :
    (entryAmong e (shapes e ts) t).sameKey (entry e ts s) = (s == t.shape e) := by
  cases t with
  | leaf value =>
      cases s with
      | terminal value' => simp [entryAmong, entry, Entry.sameKey, eq_comm]
      | test p q => rfl
  | node name low high =>
      rw [shape_of_isKept hkept]
      cases s with
      | terminal value => rfl
      | test p q =>
          obtain ⟨hp, hq⟩ := hts.branch_mem_shapes hs
          have hlow : (shapes e ts).idxOf (low.shape e) = (shapes e ts).idxOf p ↔
              p = low.shape e := by rw [List.idxOf_inj (shape_mem_shapes hbranches.1), eq_comm]
          have hhigh : (shapes e ts).idxOf (high.shape e) = (shapes e ts).idxOf q ↔
              q = high.shape e := by rw [List.idxOf_inj (shape_mem_shapes hbranches.2), eq_comm]
          rw [Bool.eq_iff_iff]
          simp [entryAmong, entry, Entry.sameKey, hlow, hhigh]

theorem findIdx?_entries {e : Bool} {ts : List Tree} (hts : Closed ts) {t : Tree}
    (hbranches : BranchesIn ts t) (hkept : t.isKept e = true) :
    (entries e ts).findIdx? (entryAmong e (shapes e ts) t).sameKey
      = if t.shape e ∈ shapes e ts then some ((shapes e ts).idxOf (t.shape e)) else none :=
  findIdx?_map_of_forall fun _ hs => sameKey_entryAmong hts hbranches hkept hs

end Tree

/-! ## The invariant of reduction -/

namespace Reduction

variable {t : Table} {e : Bool} {us : List Nat} {s : Reduction}

/-- What has been identified after the nodes `us`: the entries are those of the shapes of their
    unfoldings, and every node has the place of its shape as its identity. -/
structure Reflects (t : Table) (e : Bool) (us : List Nat) (s : Reduction) : Prop where
  size : s.identities.size = t.size
  entries : s.entries.toList = Tree.entries e (us.map t.unfold)
  identity : ∀ u ∈ us,
    s.identity u = some ((Tree.shapes e (us.map t.unfold)).idxOf ((t.unfold u).shape e))

theorem Reflects.size_entries (h : s.Reflects t e us) :
    s.entries.size = (Tree.shapes e (us.map t.unfold)).length := by
  rw [← Array.length_toList, h.entries, Tree.entries, List.length_map]

theorem reflects_start : (start t.size).Reflects t e [] where
  size := by simp [start]
  entries := rfl
  identity := by
    intro u hu
    simp at hu

theorem Reflects.identify (h : s.Reflects t e us) {u : Nat} (hu : u < t.size)
    {entries : Array Entry}
    (hentries : entries.toList = Tree.entries e ((us ++ [u]).map t.unfold)) {p : Nat}
    (hp : p = (Tree.shapes e ((us ++ [u]).map t.unfold)).idxOf ((t.unfold u).shape e)) :
    ({ s with entries := entries }.identify u p).Reflects t e (us ++ [u]) where
  size := by simp [Reduction.identify, h.size]
  entries := hentries
  identity := by
    intro w hw
    rw [identity_identify]
    split
    · next hcond => rw [← hcond.1, hp]
    · next hcond =>
        rw [List.mem_append, List.mem_singleton] at hw
        rcases hw with hw | rfl
        · have hshape : (t.unfold w).shape e ∈ Tree.shapes e (us.map t.unfold) :=
            Tree.shape_mem_shapes (List.mem_map_of_mem hw)
          rw [List.map_append, Tree.idxOf_shapes_append hshape]
          exact h.identity w hw
        · exact absurd ⟨rfl, h.size ▸ hu⟩ hcond

theorem Reflects.identify_of_mem (h : s.Reflects t e us) (hus : t.BottomUp us) {u : Nat}
    (hu : u < t.size) (hshape : (t.unfold u).shape e ∈ Tree.shapes e (us.map t.unfold)) {p : Nat}
    (hp : p = (Tree.shapes e (us.map t.unfold)).idxOf ((t.unfold u).shape e)) :
    (s.identify u p).Reflects t e (us ++ [u]) := by
  obtain ⟨hshapes, hentries⟩ := Tree.entries_concat_of_mem hus.closed hshape
  refine h.identify hu ?_ ?_
  · rw [List.map_append, List.map_singleton, hentries, h.entries]
  · rw [List.map_append, List.map_singleton, hshapes, hp]

/-- The successors of a kept node are entries: their shapes are listed. -/
theorem Reflects.fits (h : s.Reflects t e us) {u : Nat}
    (hbranches : Tree.BranchesIn (us.map t.unfold) (t.unfold u)) :
    (Tree.entryAmong e (Tree.shapes e (us.map t.unfold)) (t.unfold u)).Fits s.entries.size := by
  rw [h.size_entries]
  cases hu : t.unfold u with
  | leaf value => trivial
  | node name low high =>
      rw [hu] at hbranches
      exact ⟨List.idxOf_lt_length_of_mem (Tree.shape_mem_shapes hbranches.1),
        List.idxOf_lt_length_of_mem (Tree.shape_mem_shapes hbranches.2)⟩

theorem Reflects.intern (h : s.Reflects t e us) (hus : t.BottomUp us) {u : Nat} (hu : u < t.size)
    (hbranches : Tree.BranchesIn (us.map t.unfold) (t.unfold u))
    (hkept : (t.unfold u).isKept e = true) :
    ∃ s', s.intern u (Tree.entryAmong e (Tree.shapes e (us.map t.unfold)) (t.unfold u)) = .ok s' ∧
      s'.Reflects t e (us ++ [u]) := by
  have hfind := Tree.findIdx?_entries hus.closed hbranches hkept
  rw [← h.entries, ← List.findIdx?_toArray, Array.toArray_toList] at hfind
  rw [Reduction.intern, hfind, Entry.missing?_eq_none_iff.2 (h.fits hbranches)]
  by_cases hshape : (t.unfold u).shape e ∈ Tree.shapes e (us.map t.unfold)
  · rw [if_pos hshape]
    exact ⟨_, rfl, h.identify_of_mem hus hu hshape rfl⟩
  · rw [if_neg hshape]
    obtain ⟨hshapes, hentries⟩ := Tree.entries_concat_of_not_mem hus.closed hbranches hshape
    refine ⟨_, rfl, h.identify hu ?_ ?_⟩
    · rw [List.map_append, List.map_singleton, hentries, Array.toList_push, h.entries]
    · rw [List.map_append, List.map_singleton, hshapes, List.idxOf_append_of_notMem hshape,
        h.size_entries]
      simp

/-- Going through one more node passes the checks and keeps the invariant. -/
theorem Reflects.step (h : s.Reflects t e us) (hus : t.BottomUp us) {u : Nat} (hu : u < t.size)
    (hproper : (t.unfold u).Proper)
    (hbranches : ∀ (name : Option String) (low high : Fin u),
      t.test? u = some (name, low, high) → low.val ∈ us ∧ high.val ∈ us) :
    ∃ s', step t e s u = .ok s' ∧ s'.Reflects t e (us ++ [u]) := by
  have hintern := h.intern hus hu (Table.branchesIn_unfold hbranches)
  rcases Table.cases_of_proper hproper with ⟨b, htest, hvalue, hleaf⟩ | ⟨name, low, high, htest,
    hnode⟩
  · rw [hleaf] at hintern
    rw [Reduction.step, Table.decision?_of_not_test htest, hvalue]
    exact hintern rfl
  · obtain ⟨hlow, hhigh⟩ := hbranches _ low high htest
    have hshapelow := Tree.shape_mem_shapes (e := e) (List.mem_map_of_mem (f := t.unfold) hlow)
    rw [Reduction.step, Table.decision?_of_test htest, Option.map_some]
    dsimp only
    rw [h.identity low hlow, h.identity high hhigh]
    dsimp only
    -- The branches have one identity exactly if they have one shape.
    have hsame : (e && (Tree.shapes e (us.map t.unfold)).idxOf ((t.unfold low).shape e)
        == (Tree.shapes e (us.map t.unfold)).idxOf ((t.unfold high).shape e))
        = !(t.unfold u).isKept e := by
      rw [hnode, Tree.isKept, Bool.not_not, Bool.eq_iff_iff]
      simp [List.idxOf_inj hshapelow]
    rw [hsame]
    cases hkept : (t.unfold u).isKept e with
    | true =>
        rw [hnode] at hintern hkept
        exact hintern hkept
    | false =>
        have hshape : (t.unfold u).shape e = (t.unfold low).shape e := by
          rw [hnode] at hkept ⊢
          exact Tree.shape_of_not_isKept hkept
        exact ⟨_, rfl, h.identify_of_mem hus hu (hshape ▸ hshapelow) (by rw [hshape])⟩

/-- Going through nodes bottom up passes the checks and reflects all of them. -/
theorem reflects_foldlM (hus : t.BottomUp us) (hproper : ∀ u ∈ us, (t.unfold u).Proper) :
    ∃ s, us.foldlM (Reduction.step t e) (start t.size) = .ok s ∧ s.Reflects t e us := by
  induction hus with
  | nil => exact ⟨_, rfl, reflects_start⟩
  | @concat us u hus hu hbranches ih =>
      obtain ⟨s, hs, hreflects⟩ := ih fun v hv => hproper v (List.mem_append_left _ hv)
      obtain ⟨s', hstep, hreflects'⟩ := hreflects.step hus hu (hproper u (by simp)) hbranches
      refine ⟨s', ?_, hreflects'⟩
      rw [List.foldlM_append, hs]
      show (Reduction.step t e s u).bind .ok = _
      rw [hstep]
      rfl

theorem reflects_runChecked {d : Diagram} (h : d.tree.Proper) (e : Bool) :
    ∃ s, runChecked d e = .ok s ∧ s.Reflects d.table e d.nodes :=
  reflects_foldlM (Diagram.bottomUp_nodes h) fun _ hu => ((Diagram.mem_nodes_iff h _).1 hu).proper h

theorem reflects_run {d : Diagram} (h : d.tree.Proper) (e : Bool) :
    (run d e).Reflects d.table e d.nodes := by
  obtain ⟨s, hs, hreflects⟩ := reflects_runChecked h e
  rwa [run_of_runChecked hs]

end Reduction

theorem Diagram.reduceChecked_eq {d : Diagram} (h : d.tree.Proper) (e : Bool) :
    d.reduceChecked e = .ok (d.reduce e) := by
  obtain ⟨s, hs, -⟩ := Reduction.reflects_runChecked h e
  unfold reduceChecked reduce
  split
  · next s' hs' =>
      cases Reduction.run_of_runChecked hs'
      rfl
  · next hs' =>
      rw [hs] at hs'
      cases hs'

/-! ## The reduced diagram -/

theorem Reduced.eq_of_entries_eq {r r' : Reduced} (hentries : r.table.entries = r'.table.entries)
    (hroot : r.root = r'.root) : r = r' := by
  obtain ⟨⟨entries, _⟩, root⟩ := r
  obtain ⟨⟨entries', _⟩, root'⟩ := r'
  cases hentries
  cases hroot
  rfl

namespace Diagram

variable {d : Diagram}

/-- The identity of a node is the place of its shape among those of the unfolding. -/
theorem identity_run (h : d.tree.Proper) (e : Bool) {u : Nat} (hu : d.table.Reaches d.root u) :
    (Reduction.run d e).identity u
      = some ((Tree.shapes e d.tree.postorder).idxOf ((d.table.unfold u).shape e)) := by
  rw [(Reduction.reflects_run h e).identity u ((mem_nodes_iff h u).2 hu),
    (Tree.entries_congr (trees_nodes h) e).1]

/-- The entries of the reduced diagram are those of the shapes of the unfolding. -/
theorem entries_reduce (h : d.tree.Proper) (e : Bool) :
    (d.reduce e).table.entries.toList = Tree.entries e d.tree.postorder := by
  show (Reduction.run d e).entries.toList = _
  rw [(Reduction.reflects_run h e).entries, (Tree.entries_congr (trees_nodes h) e).2]

theorem getElem?_entries_reduce (h : d.tree.Proper) (e : Bool) (u : Nat) :
    (d.reduce e).table.entries[u]? = (Tree.entries e d.tree.postorder)[u]? := by
  rw [← Array.getElem?_toList, entries_reduce h e]

theorem root_reduce (h : d.tree.Proper) (e : Bool) :
    (d.reduce e).root
      = some (((Tree.shapes e d.tree.postorder).idxOf (d.tree.shape e) : Nat) : Int) := by
  show ((Reduction.run d e).identity d.root).map _ = _
  rw [identity_run h e (.refl _)]
  rfl

/-- Reduction depends on the unfolding only. -/
theorem reduce_congr {d d' : Diagram} (h : d.tree.Proper) (hd : d'.tree = d.tree) (e : Bool) :
    d'.reduce e = d.reduce e := by
  have h' : d'.tree.Proper := hd ▸ h
  have hentries : (d'.reduce e).table.entries = (d.reduce e).table.entries := by
    apply Array.toList_inj.1
    rw [entries_reduce h e, entries_reduce h' e, hd]
  have hroot : (d'.reduce e).root = (d.reduce e).root := by
    rw [root_reduce h e, root_reduce h' e, hd]
  exact Reduced.eq_of_entries_eq hentries hroot

end Diagram

end PropDiagram
