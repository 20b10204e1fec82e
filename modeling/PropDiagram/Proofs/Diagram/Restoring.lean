import PropDiagram.Proofs.Diagram.Identities

set_option autoImplicit false

/-! # Reading reduced diagrams back

A reduced diagram unfolds to the shape of the diagram that was reduced, with a literal for every
test. The literal belongs to the shape: it is that of the first tree of this shape that is kept,
wherever the shape occurs (`Tree.restored`). -/

namespace PropDiagram

namespace Tree

/-! ## Shapes with literals -/

/-- The shape as a tree in which every test has the literal of the first tree of its shape that is
    kept. -/
def restored (e : Bool) (ts : List Tree) : Shape → Tree
  | .terminal value => leaf value
  | .test low high =>
    node ((representative? e ts (.test low high)).bind name?) (restored e ts low)
      (restored e ts high)

theorem erased_restored (e : Bool) (ts : List Tree) (s : Shape) : (restored e ts s).erased = s := by
  induction s with
  | terminal value => rfl
  | test low high ihl ihh => rw [restored, erased, ihl, ihh]

theorem getElem?_entries {e : Bool} {ts : List Tree} {s : Shape} (hs : s ∈ shapes e ts) :
    (entries e ts)[(shapes e ts).idxOf s]? = some (entry e ts s) := by
  rw [entries, List.getElem?_map, List.getElem?_idxOf hs, Option.map_some]

theorem getElem?_of_entries {e : Bool} {ts : List Tree} {t : Table}
    (ht : t.entries.toList = entries e ts) {s : Shape} (hs : s ∈ shapes e ts) :
    t.entries[(shapes e ts).idxOf s]? = some (entry e ts s) := by
  rw [← Array.getElem?_toList, ht]
  exact getElem?_entries hs

theorem exists_of_getElem?_entries {e : Bool} {ts : List Tree} {p : Nat} {x : Entry}
    (h : (entries e ts)[p]? = some x) :
    ∃ s ∈ shapes e ts, (shapes e ts).idxOf s = p ∧ x = entry e ts s := by
  rw [entries, List.getElem?_map, Option.map_eq_some_iff] at h
  obtain ⟨s, hs, rfl⟩ := h
  obtain ⟨hp, hget⟩ := List.getElem?_eq_some_iff.1 hs
  refine ⟨s, hget ▸ List.getElem_mem hp, ?_, rfl⟩
  rw [← hget]
  exact (nodup_eraseDups _).idxOf_getElem p hp

/-- A table of the entries of shapes unfolds the place of a shape to the shape. -/
theorem Closed.unfold_entries {ts : List Tree} (hts : Closed ts) {e : Bool} {t : Table}
    (ht : t.entries.toList = entries e ts) {s : Shape} (hs : s ∈ shapes e ts) :
    t.unfold ((shapes e ts).idxOf s) = restored e ts s := by
  induction s with
  | terminal value =>
      rw [Table.unfold_eq, getElem?_of_entries ht hs]
      rfl
  | test low high ihl ihh =>
      obtain ⟨hlow, hhigh⟩ := hts.branch_mem_shapes hs
      rw [Table.unfold_eq, getElem?_of_entries ht hs, entry]
      dsimp only
      rw [ihl hlow, ihh hhigh, restored]

/-- If the trees of the list differ without their names too, a shape gets its names back. -/
theorem Closed.restored_erased {ts : List Tree} (hts : Closed ts)
    (hinj : ∀ s ∈ ts, ∀ t ∈ ts, s.erased = t.erased → s = t) {t : Tree} (ht : t ∈ ts) :
    restored false ts t.erased = t := by
  induction t with
  | leaf value => rfl
  | node name low high ihl ihh =>
      obtain ⟨hlow, hhigh⟩ := hts.branches ht
      obtain ⟨s, hs, hrep, -, hshape⟩ := hts.exists_representative (erased_mem_shapes ht)
      rw [shape_false] at hshape
      have heq := hinj s hs _ ht hshape
      rw [erased] at hrep
      rw [erased, restored, hrep, ihl hlow, ihh hhigh, heq]
      rfl

theorem Closed.settled_entry {ts : List Tree} (hts : Closed ts) (hproper : ∀ t ∈ ts, t.Proper)
    {e : Bool} {s : Shape} (hs : s ∈ shapes e ts) :
    Reduced.settled (entry e ts s) = entry e ts s := by
  cases s with
  | test low high => rfl
  | terminal value =>
      obtain ⟨t, ht, -, hkept, hshape⟩ := hts.exists_representative hs
      cases t with
      | leaf value' =>
          obtain ⟨b, hb⟩ := Option.isSome_iff_exists.1 (hproper _ ht)
          rw [shape_leaf, hb, Shape.terminal.injEq] at hshape
          rw [← hshape]
          rfl
      | node name low high =>
          rw [shape_of_isKept hkept] at hshape
          cases hshape

end Tree

/-! ## The unfolding of a reduced diagram -/

namespace Diagram

variable {d : Diagram}

theorem proper_of_mem_postorder (h : d.tree.Proper) : ∀ t ∈ d.tree.postorder, t.Proper :=
  fun _ ht => h.of_mem_postorder ht

theorem shape_mem_shapes_tree (d : Diagram) (e : Bool) :
    d.tree.shape e ∈ Tree.shapes e d.tree.postorder :=
  Tree.shape_mem_shapes (Tree.self_mem_postorder _)

theorem exists_shape_of_entry (h : d.tree.Proper) {e : Bool} {u : Nat} {x : Entry}
    (hx : (d.reduce e).table.entries[u]? = some x) :
    ∃ s ∈ Tree.shapes e d.tree.postorder, (Tree.shapes e d.tree.postorder).idxOf s = u ∧
      x = Tree.entry e d.tree.postorder s := by
  rw [← Array.getElem?_toList, entries_reduce h e] at hx
  exact Tree.exists_of_getElem?_entries hx

theorem getElem?_reduce (h : d.tree.Proper) {e : Bool} {s : Shape}
    (hs : s ∈ Tree.shapes e d.tree.postorder) :
    (d.reduce e).table.entries[(Tree.shapes e d.tree.postorder).idxOf s]?
      = some (Tree.entry e d.tree.postorder s) := by
  rw [← Array.getElem?_toList, entries_reduce h e]
  exact Tree.getElem?_entries hs

/-- The identity of a node unfolds to the shape of the node. -/
theorem unfold_identity (h : d.tree.Proper) (e : Bool) {s : Shape}
    (hs : s ∈ Tree.shapes e d.tree.postorder) :
    (d.reduce e).table.unfold ((Tree.shapes e d.tree.postorder).idxOf s)
      = Tree.restored e d.tree.postorder s :=
  (Tree.closed_postorder _).unfold_entries (entries_reduce h e) hs

theorem size_reduce (h : d.tree.Proper) (e : Bool) :
    (d.reduce e).size = (Tree.shapes e d.tree.postorder).length := by
  rw [Reduced.size, Table.size, ← Array.length_toList, entries_reduce h e, Tree.entries,
    List.length_map]

theorem place?_reduce (h : d.tree.Proper) (e : Bool) :
    ∃ p : Fin (d.reduce e).size, (d.reduce e).place? (d.reduce e).root = some p ∧
      p.val = (Tree.shapes e d.tree.postorder).idxOf (d.tree.shape e) := by
  have hlt : (Tree.shapes e d.tree.postorder).idxOf (d.tree.shape e) < (d.reduce e).size := by
    rw [size_reduce h e, List.idxOf_lt_length_iff]
    exact shape_mem_shapes_tree d e
  refine ⟨⟨_, hlt⟩, ?_, rfl⟩
  rw [root_reduce h e, Reduced.place?, Option.bind_some, dif_pos ⟨by omega, by omega⟩]
  simp

theorem map_settled_reduce (h : d.tree.Proper) (e : Bool) :
    (d.reduce e).table.entries.map Reduced.settled = (d.reduce e).table.entries := by
  apply Array.toList_inj.1
  rw [Array.toList_map, entries_reduce h e, Tree.entries, List.map_map]
  exact List.map_congr_left fun s hs =>
    (Tree.closed_postorder _).settled_entry (proper_of_mem_postorder h) hs

/-- Reading the reduced diagram back gives the shape of the diagram. -/
theorem exists_toDiagram (h : d.tree.Proper) (e : Bool) :
    ∃ d', (d.reduce e).toDiagram = .ok d' ∧
      d'.tree = Tree.restored e d.tree.postorder (d.tree.shape e) := by
  obtain ⟨p, hplace, hp⟩ := place?_reduce h e
  refine ⟨⟨⟨_, Reduced.ordered_settled (d.reduce e).table.ordered⟩, p, ?_⟩, ?_, ?_⟩
  · rw [Table.size, Array.size_map]
    exact p.isLt
  · rw [Reduced.toDiagram, hplace]
  · refine (Table.unfold_congr ?_).trans ((congrArg _ hp).trans
      (unfold_identity h e (shape_mem_shapes_tree d e)))
    intro v _
    show ((d.reduce e).table.entries.map Reduced.settled)[v]? = _
    rw [map_settled_reduce h e]

/-- The literal of an identity is that of the first node of its shape that is kept. -/
theorem exists_first_of_test (h : d.tree.Proper) {e : Bool} {p : Nat} {name : Option String}
    {low high : Nat} (hentry : (d.reduce e).table.entries[p]? = some (.test name low high)) :
    ∃ u, (d.table.occurrences d.root).find? (fun u => (d.table.unfold u).isKept e &&
        (d.table.unfold u).shape e == ((d.reduce e).table.unfold p).erased) = some u ∧
      ∃ l r, d.table.test? u = some (name, l, r) := by
  rw [← Array.getElem?_toList, entries_reduce h e] at hentry
  obtain ⟨s, hs, rfl, hx⟩ := Tree.exists_of_getElem?_entries hentry
  cases s with
  | terminal value => cases hx
  | test p q =>
      obtain ⟨name', low', high', hrep, -⟩ := (Tree.closed_postorder d.tree).exists_node hs
      rw [Tree.entry, hrep] at hx
      rw [unfold_identity h e hs, Tree.erased_restored]
      rw [Tree.representative?, tree, ← Table.map_unfold_occurrences, List.find?_map,
        Option.map_eq_some_iff] at hrep
      obtain ⟨u, hfind, hunfold⟩ := hrep
      refine ⟨u, hfind, ?_⟩
      cases htest : d.table.test? u with
      | none =>
          rw [Table.unfold_of_not_test htest] at hunfold
          cases hunfold
      | some test =>
          obtain ⟨name'', l, r⟩ := test
          rw [Table.unfold_of_test htest] at hunfold
          cases hunfold
          cases hx
          exact ⟨l, r, rfl⟩

/-- Nodes below the root have an identity, which unfolds to their shape. -/
theorem exists_identity (h : d.tree.Proper) (e : Bool) {u : Nat}
    (hu : d.table.Reaches d.root u) :
    ∃ p, (Reduction.run d e).identity u = some p ∧
      ((d.reduce e).table.unfold p).erased = (d.table.unfold u).shape e := by
  refine ⟨_, identity_run h e hu, ?_⟩
  rw [unfold_identity h e (Tree.shape_mem_shapes hu.unfold_mem_postorder), Tree.erased_restored]

theorem identity_eq_iff (h : d.tree.Proper) (e : Bool) {u v : Nat}
    (hu : d.table.Reaches d.root u) (hv : d.table.Reaches d.root v) :
    (Reduction.run d e).identity u = (Reduction.run d e).identity v ↔
      (d.table.unfold u).shape e = (d.table.unfold v).shape e := by
  obtain ⟨p, hp, hpshape⟩ := exists_identity h e hu
  obtain ⟨q, hq, hqshape⟩ := exists_identity h e hv
  constructor
  · intro heq
    rw [hp, hq, Option.some.injEq] at heq
    rw [← hpshape, ← hqshape, heq]
  · intro heq
    rw [identity_run h e hu, identity_run h e hv, heq]

/-- What reduction identifies. A diagram whose tests name literals and whose terminals have truth
    values is reduced by shape: its nodes below the root have the same identity exactly if their
    unfoldings have the same shape, and what is read back is the shape of the root. A test of the
    reduced diagram has the literal of the first node in post-order that has its shape and is not
    eliminated. Which nodes the diagram shares makes no difference. -/
theorem reduce_identifies_shapes (d : Diagram) (e : Bool) (h : d.tree.Proper) :
    (∀ u, d.table.Reaches d.root u → ∃ p, (Reduction.run d e).identity u = some p ∧
      ((d.reduce e).table.unfold p).erased = (d.table.unfold u).shape e) ∧
    (∀ u v, d.table.Reaches d.root u → d.table.Reaches d.root v →
      ((Reduction.run d e).identity u = (Reduction.run d e).identity v ↔
        (d.table.unfold u).shape e = (d.table.unfold v).shape e)) ∧
    (∃ d', (d.reduce e).toDiagram = .ok d' ∧ d'.tree.erased = d.tree.shape e ∧
      (e = false → d'.tree.size = d.tree.size)) ∧
    (∀ p name low high, (d.reduce e).table.entries[p]? = some (.test name low high) →
      ∃ u, (d.table.occurrences d.root).find? (fun u => (d.table.unfold u).isKept e &&
          (d.table.unfold u).shape e == ((d.reduce e).table.unfold p).erased) = some u ∧
        ∃ l r, d.table.test? u = some (name, l, r)) ∧
    ∀ d' : Diagram, d'.tree = d.tree → d'.reduce e = d.reduce e := by
  refine ⟨fun u hu => exists_identity h e hu, fun u v hu hv => identity_eq_iff h e hu hv, ?_,
    fun p name low high => exists_first_of_test h, fun d' hd => reduce_congr h hd e⟩
  obtain ⟨d', hd', htree⟩ := exists_toDiagram h e
  have herased : d'.tree.erased = d.tree.shape e := by rw [htree, Tree.erased_restored]
  refine ⟨d', hd', herased, ?_⟩
  rintro rfl
  rw [Tree.shape_false] at herased
  exact Tree.size_eq_of_erased_eq herased

/-- A test of `b` whose branches are one test of `a`. -/
def sharedTest : Diagram where
  table := (Table.push ⟨terminals, ordered_terminals⟩ (.test (some "a") 0 1) (by decide)).push
    (.test (some "b") 2 2) (by decide)
  root := 3
  root_lt := by decide

theorem reduce_sharedTest : sharedTest.tree.Proper ∧
    (Reduction.run sharedTest true).identity 3 = (Reduction.run sharedTest true).identity 2 ∧
    ∃ d', (sharedTest.reduce true).toDiagram = .ok d' ∧
      d'.tree.erased = .test (.terminal (some false)) (.terminal (some true)) := by
  have hroot : sharedTest.table.test? 3 = some (some "b", 2, 2) := rfl
  have hshared : sharedTest.table.test? 2 = some (some "a", 0, 1) := rfl
  have hfalse : sharedTest.table.unfold 0 = .leaf (some false) := Table.unfold_of_not_test rfl
  have htrue : sharedTest.table.unfold 1 = .leaf (some true) := Table.unfold_of_not_test rfl
  have hbranch : sharedTest.table.unfold 2
      = .node (some "a") (.leaf (some false)) (.leaf (some true)) := by
    rw [Table.unfold_of_test hshared, ← hfalse, ← htrue]
    rfl
  have htree : sharedTest.tree = .node (some "b") (sharedTest.table.unfold 2)
      (sharedTest.table.unfold 2) := Table.unfold_of_test hroot
  have hproper : sharedTest.tree.Proper := by
    rw [htree, hbranch]
    exact ⟨rfl, ⟨rfl, rfl, rfl⟩, ⟨rfl, rfl, rfl⟩⟩
  have hshape : sharedTest.tree.shape true = (sharedTest.table.unfold 2).shape true := by
    rw [htree]
    simp [Tree.shape]
  obtain ⟨-, hidentity, ⟨d', hd', herased, -⟩, -⟩ :=
    reduce_identifies_shapes sharedTest true hproper
  refine ⟨hproper, ?_, d', hd', ?_⟩
  · exact (hidentity 3 2 (.refl 3) (.low hroot (.refl 2))).2 hshape
  · rw [herased, hshape, hbranch]
    rfl

end Diagram

end PropDiagram
