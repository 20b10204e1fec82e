import PropDiagram.Proofs.Diagram.WellFormed

set_option autoImplicit false

/-! # Two drawings of a reduced diagram

A reduced diagram is drawn in the order of its identities, and what it is read back to in post-order,
with new numbers. Both are the same drawing (`Diagram.draw_toDiagram_reduce`), since the identities
were given out in post-order: going through what is read back meets the identities in their own order
(`Diagram.nodes_toDiagram`), so the new numbers are the old ones. -/

namespace PropDiagram

/-! ## Numbers in order -/

theorem map_idxOf_self {α : Type} [DecidableEq α] {l : List α} (h : l.Nodup) :
    l.map l.idxOf = List.range l.length := by
  refine List.ext_getElem (by simp) fun i hi _ => ?_
  rw [List.length_map] at hi
  rw [List.getElem_map, List.getElem_range, h.idxOf_getElem i hi]

theorem Table.entriesOf_range (t : Table) : t.entriesOf (List.range t.size) = t.entries.toList := by
  have hnumber : ∀ {u v : Nat}, u < v → v < t.size → (List.range t.size).idxOf u = u := by
    intro u v huv hv
    have hu : u < (List.range t.size).length := by
      rw [List.length_range]
      omega
    have hself := (List.nodup_range (n := t.size)).idxOf_getElem u hu
    rwa [List.getElem_range] at hself
  refine List.ext_getElem (by simp [size]) fun u hu hu' => ?_
  rw [length_entriesOf, List.length_range] at hu
  have hentry : t.entries[u]? = some t.entries.toList[u] := by
    rw [← Array.getElem?_toList]
    exact List.getElem?_eq_getElem hu'
  simp only [entriesOf, List.getElem_map, List.getElem_range]
  cases he : t.entries.toList[u] with
  | terminal value =>
      rw [he] at hentry
      rw [entryIn, test?_eq_none_of_terminal hentry, Table.value, hentry]
  | test name low high =>
      rw [he] at hentry
      obtain ⟨hlow, hhigh⟩ := t.ordered u _ hentry
      rw [entryIn, test?_of_entry hentry]
      dsimp only
      rw [hnumber hlow hu, hnumber hhigh hu]

namespace Diagram

variable {d d' : Diagram} {e : Bool}

theorem table_toDiagram (h : d.tree.Proper) (hd : (d.reduce e).toDiagram = .ok d') :
    d'.table.entries = (d.reduce e).table.entries ∧
      d'.root = (Tree.shapes e d.tree.postorder).idxOf (d.tree.shape e) := by
  obtain ⟨p, hplace, hp⟩ := place?_reduce h e
  rw [Reduced.toDiagram, hplace] at hd
  cases hd
  exact ⟨map_settled_reduce h e, hp⟩

theorem proper_toDiagram (h : d.tree.Proper) (hd : (d.reduce e).toDiagram = .ok d') :
    d'.tree.Proper := by
  obtain ⟨d₁, hd₁, htree⟩ := exists_toDiagram h e
  rw [hd, Except.ok.injEq] at hd₁
  rw [hd₁, htree]
  exact proper_restored_tree h e

/-- Going through what a reduced diagram is read back to meets the identities in their order. -/
theorem nodes_toDiagram (h : d.tree.Proper) (hd : (d.reduce e).toDiagram = .ok d') :
    d'.nodes = List.range (d.reduce e).size := by
  obtain ⟨hentries, hroot⟩ := table_toDiagram h hd
  have hlist : d'.table.entries.toList = Tree.entries e d.tree.postorder := by
    rw [hentries, entries_reduce h e]
  have hinj : ∀ s ∈ (d.tree.shape e).postorder, ∀ r ∈ (d.tree.shape e).postorder,
      (Tree.shapes e d.tree.postorder).idxOf s = (Tree.shapes e d.tree.postorder).idxOf r →
        s = r := by
    intro s hs r _ heq
    exact (List.idxOf_inj ((mem_shapes_postorder d e s).2 hs)).1 heq
  calc d'.nodes
      = (d'.table.occurrences d'.root).eraseDups := nodes_eq (proper_toDiagram h hd)
    _ = ((d.tree.shape e).postorder.map (Tree.shapes e d.tree.postorder).idxOf).eraseDups := by
        rw [hroot, (Tree.closed_postorder _).occurrences_entries hlist
          (shape_mem_shapes_tree d e)]
    _ = (d.tree.shape e).postorder.eraseDups.map (Tree.shapes e d.tree.postorder).idxOf :=
        eraseDups_map_of_injOn hinj
    _ = (Tree.shapes e d.tree.postorder).map (Tree.shapes e d.tree.postorder).idxOf := by
        rw [Tree.shapes, Tree.eraseDups_map_shape]
    _ = List.range (d.reduce e).size := by
        rw [map_idxOf_self (Tree.nodup_shapes e _), size_reduce h e]

/-- **Both drawings of a reduced diagram are the same.** Let the tests of a diagram name literals and
    its terminals have truth values, whatever it shares. Its reduced diagram can be read back, and
    going through what is read back meets the identities in the order of their numbers. Drawing it
    gives the drawing of the reduced diagram: the same numbers, labels, successors, colors and labels
    of edges, in any colors. -/
theorem draw_toDiagram_reduce (h : d.tree.Proper) (e : Bool) :
    ∃ d', (d.reduce e).toDiagram = .ok d' ∧ d'.nodes = List.range (d.reduce e).size ∧
      ∀ palette, ∃ g, d'.draw palette = .ok g ∧ (d.reduce e).draw palette = .ok g := by
  obtain ⟨d', hd', -⟩ := exists_toDiagram h e
  have hnodes := nodes_toDiagram h hd'
  have hentries := (table_toDiagram h hd').1
  refine ⟨d', hd', hnodes, ?_⟩
  intro palette
  obtain ⟨g, hg, -⟩ := (d.reduce e).exists_depicts palette
  refine ⟨g, ?_, hg⟩
  have hsize : (d.reduce e).size = d'.table.size := by
    rw [Reduced.size, Table.size, Table.size, hentries]
  rw [draw_eq (proper_toDiagram h hd'), hnodes, hsize, Table.entriesOf_range, hentries]
  exact hg

/-- Merging the twins leaves a test of `b` both branches of which are the first twin: four nodes,
    drawn alike from the reduced diagram and from what it is read back to. -/
theorem draw_toDiagram_reduce_twinTests :
    twinTests.Proper ∧ ∃ d' g, ((ofTree twinTests).reduce false).toDiagram = .ok d' ∧
      d'.nodes = [0, 1, 2, 3] ∧ d'.draw .usual = .ok g ∧ g.size = 4 ∧
      g.edgeLabels.get? (3, 2) = some (some "F/T") := by
  have h := proper_ofTree proper_twinTests
  have hsize : ((ofTree twinTests).reduce false).size = 4 := by
    rw [size_reduce h, tree_ofTree proper_twinTests]
    decide
  obtain ⟨d', hd', hnodes, hdraw⟩ := draw_toDiagram_reduce h false
  obtain ⟨g, hg, hg'⟩ := hdraw .usual
  have hshown : (((ofTree twinTests).reduce false).draw .usual).map
      (fun g => (g.size, g.edgeLabels.get? (3, 2))) = .ok (4, some (some "F/T")) := by
    decide +kernel
  rw [hg', Except.map, Except.ok.injEq, Prod.mk.injEq] at hshown
  refine ⟨proper_twinTests, d', g, hd', ?_, hg, hshown⟩
  rw [hnodes, hsize]
  rfl

end Diagram

end PropDiagram
