import PropDiagram.Proofs.Diagram.Path
import PropDiagram.Proofs.Diagram.Walk

set_option autoImplicit false

/-! # The form of reduced diagrams

Whatever a diagram shares, and whether or not tests are eliminated, what reduction makes of it has one
form (`Reduced.WellFormed`): identities are numbered from zero on, lead to smaller ones, and are kept
apart by their keys, and the root is the last of them and reaches all.

All of this follows from the shapes that identities stand for. The shapes of a diagram are those of
the subtrees of its own shape (`Tree.eraseDups_map_shape`), also when elimination makes the root
collapse to one of its branches. So nothing is left behind that the root does not reach, and going
through the table meets the identities the way going through the shape meets its subtrees
(`Tree.Closed.occurrences_entries`). -/

namespace PropDiagram

/-! ## Identities and shapes -/

namespace Tree

variable {ts : List Tree} {e : Bool} {u v low high : Nat} {name name' : Option String}
  {value : Option Bool}

/-- In a table of the entries of shapes, what is met below the place of a shape are the places of its
    subtrees. -/
theorem Closed.occurrences_entries (hts : Closed ts) {t : Table}
    (ht : t.entries.toList = entries e ts) {s : Shape} (hs : s ∈ shapes e ts) :
    t.occurrences ((shapes e ts).idxOf s) = s.postorder.map (shapes e ts).idxOf := by
  induction s with
  | terminal value =>
      have hentry := getElem?_of_entries ht hs
      rw [Table.occurrences_of_not_test (Table.test?_eq_none_of_terminal hentry)]
      rfl
  | test p q ihp ihq =>
      obtain ⟨hp, hq⟩ := hts.branch_mem_shapes hs
      have hentry := getElem?_of_entries ht hs
      rw [Table.occurrences_of_test (Table.test?_of_entry hentry), Shape.postorder,
        List.map_append, List.map_append, List.map_singleton]
      dsimp only
      rw [ihp hp, ihq hq]

theorem eq_of_terminal_entries (hu : (entries e ts)[u]? = some (.terminal value))
    (hv : (entries e ts)[v]? = some (.terminal value)) : u = v := by
  obtain ⟨s, -, rfl, hs⟩ := exists_of_getElem?_entries hu
  obtain ⟨r, -, rfl, hr⟩ := exists_of_getElem?_entries hv
  cases s with
  | test p q => cases hs
  | terminal value =>
      cases r with
      | test p q => cases hr
      | terminal value' =>
          cases hs
          cases hr
          rfl

theorem Closed.eq_of_test_entries (hts : Closed ts)
    (hu : (entries e ts)[u]? = some (.test name low high))
    (hv : (entries e ts)[v]? = some (.test name' low high)) : u = v := by
  obtain ⟨s, hs, rfl, hsentry⟩ := exists_of_getElem?_entries hu
  obtain ⟨r, hr, rfl, hrentry⟩ := exists_of_getElem?_entries hv
  cases s with
  | terminal value => cases hsentry
  | test p q =>
      cases r with
      | terminal value => cases hrentry
      | test p' q' =>
          obtain ⟨hp, hq⟩ := hts.branch_mem_shapes hs
          rw [entry, Entry.test.injEq] at hsentry hrentry
          have hlow := hsentry.2.1.symm.trans hrentry.2.1
          have hhigh := hsentry.2.2.symm.trans hrentry.2.2
          rw [List.idxOf_inj hp] at hlow
          rw [List.idxOf_inj hq] at hhigh
          rw [hlow, hhigh]

theorem Closed.low_ne_high (hts : Closed ts)
    (hu : (entries true ts)[u]? = some (.test name low high)) : low ≠ high := by
  obtain ⟨s, hs, -, hentry⟩ := exists_of_getElem?_entries hu
  cases s with
  | terminal value => cases hentry
  | test p q =>
      obtain ⟨hp, -⟩ := hts.branch_mem_shapes hs
      obtain ⟨t, -, -, hkept, hshape⟩ := hts.exists_representative hs
      cases t with
      | leaf value => cases hshape
      | node name' l r =>
          rw [shape_of_isKept hkept, Shape.test.injEq] at hshape
          obtain ⟨rfl, rfl⟩ := hshape
          rw [entry, Entry.test.injEq] at hentry
          obtain ⟨-, rfl, rfl⟩ := hentry
          rw [ne_eq, List.idxOf_inj hp]
          simpa [isKept] using hkept

end Tree

/-! ## The form -/

/-- The form of a reduced diagram, with or without elimination. -/
structure Reduced.WellFormed (e : Bool) (r : Reduced) : Prop where
  /-- The identities are the numbers below the size. -/
  identities : ∀ i, r.contains i = true ↔ ∃ u : Nat, u < r.size ∧ i = some (u : Int)
  /-- Tests lead to smaller identities. -/
  successors : ∀ (u : Nat) (name : Option String) (low high : Nat),
    r.table.entries[u]? = some (.test name low high) → low < u ∧ high < u
  /-- No two terminals have the same value. -/
  terminals : ∀ (u v : Nat) (value : Option Bool), r.table.entries[u]? = some (.terminal value) →
    r.table.entries[v]? = some (.terminal value) → u = v
  /-- No two tests have the same successors. -/
  tests : ∀ (u v : Nat) (name name' : Option String) (low high : Nat),
    r.table.entries[u]? = some (.test name low high) →
    r.table.entries[v]? = some (.test name' low high) → u = v
  /-- With elimination, the successors of a test differ. -/
  eliminated : e = true → ∀ (u : Nat) (name : Option String) (low high : Nat),
    r.table.entries[u]? = some (.test name low high) → low ≠ high
  /-- The root is the last identity and reaches every identity. -/
  root : ∃ u : Nat, r.root = some (u : Int) ∧ r.size = u + 1 ∧
    ∀ v, v < r.size → r.table.Reaches u v

theorem Reduced.contains_iff (r : Reduced) (i : Option Int) :
    r.contains i = true ↔ ∃ u : Nat, u < r.size ∧ i = some (u : Int) := by
  rw [contains, place?]
  cases i with
  | none => simp
  | some i =>
      rw [Option.bind_some]
      constructor
      · intro h
        split at h
        · next hrange => exact ⟨i.toNat, by omega, by rw [Int.toNat_of_nonneg hrange.1]⟩
        · cases h
      · rintro ⟨u, hu, hi⟩
        cases hi
        rw [dif_pos ⟨Int.natCast_nonneg u, Int.ofNat_lt.2 hu⟩]
        rfl

namespace Diagram

variable {d : Diagram}

/-- The shapes that identities stand for are the subtrees of the shape of the diagram. -/
theorem mem_shapes_postorder (d : Diagram) (e : Bool) (s : Shape) :
    s ∈ Tree.shapes e d.tree.postorder ↔ s ∈ (d.tree.shape e).postorder := by
  rw [Tree.shapes, Tree.eraseDups_map_shape, List.mem_eraseDups]

/-- The root of a reduced diagram comes last and reaches everything. -/
theorem reaches_of_reduce (h : d.tree.Proper) (e : Bool) :
    ∃ u : Nat, (d.reduce e).root = some (u : Int) ∧ (d.reduce e).size = u + 1 ∧
      ∀ v, v < (d.reduce e).size → (d.reduce e).table.Reaches u v := by
  refine ⟨_, root_reduce h e, (size_reduce h e).trans (Tree.idxOf_shape_succ e d.tree), ?_⟩
  intro v hv
  obtain ⟨s, hs, rfl, -⟩ := exists_shape_of_entry h (Array.getElem?_eq_getElem hv)
  rw [← Table.mem_occurrences_iff, (Tree.closed_postorder _).occurrences_entries
    (entries_reduce h e) (shape_mem_shapes_tree d e)]
  exact List.mem_map_of_mem ((mem_shapes_postorder d e s).1 hs)

theorem wellFormed_reduce (h : d.tree.Proper) (e : Bool) : (d.reduce e).WellFormed e where
  identities := (d.reduce e).contains_iff
  successors := fun u _ _ _ hu => (d.reduce e).table.ordered u _ hu
  terminals := by
    intro u v value hu hv
    rw [getElem?_entries_reduce h e] at hu hv
    exact Tree.eq_of_terminal_entries hu hv
  tests := by
    intro u v name name' low high hu hv
    rw [getElem?_entries_reduce h e] at hu hv
    exact (Tree.closed_postorder _).eq_of_test_entries hu hv
  eliminated := by
    rintro rfl u name low high hu
    rw [getElem?_entries_reduce h true] at hu
    exact (Tree.closed_postorder _).low_ne_high hu
  root := reaches_of_reduce h e

/-- Every identity is that of a node below the root, and those are the only identities. -/
theorem exists_identity_iff (h : d.tree.Proper) (e : Bool) (p : Nat) :
    p < (d.reduce e).size ↔
      ∃ u, d.table.Reaches d.root u ∧ (Reduction.run d e).identity u = some p := by
  constructor
  · intro hp
    obtain ⟨s, hs, rfl, -⟩ := exists_shape_of_entry h (Array.getElem?_eq_getElem hp)
    obtain ⟨t, ht, rfl⟩ := Tree.mem_shapes_iff.1 hs
    rw [tree, ← Table.map_unfold_occurrences] at ht
    obtain ⟨u, hu, rfl⟩ := List.mem_map.1 ht
    have hreaches := Table.mem_occurrences_iff.1 hu
    exact ⟨u, hreaches, identity_run h e hreaches⟩
  · rintro ⟨u, hu, hidentity⟩
    exact (Reduction.sound_run d e).bounded u p hidentity

/-! ## What the form is good for -/

/-- Reduction with its checks gives the reduced diagram. -/
theorem outcome_reduceTraced (h : d.tree.Proper) (e : Bool) :
    (d.reduceTraced e).outcome = .ok (d.reduce e) := by
  rw [reduceTraced, reduceChecked_eq h e]
  rfl

theorem proper_restored_tree (h : d.tree.Proper) (e : Bool) :
    (Tree.restored e d.tree.postorder (d.tree.shape e)).Proper :=
  (Tree.closed_postorder _).proper_restored (proper_of_mem_postorder h)
    (shape_mem_shapes_tree d e)

end Diagram

/-- What evaluating a reduced diagram comes to. The literals that are tested lead down a path from the
    root, by the branches for their values: to a terminal, which has the value of the diagram, or to a
    test of a literal without value, which is the fault. Fewer literals are looked up than there are
    nodes. -/
def Reduced.Halts (r : Reduced) (values : Valuation) : Prop :=
  ∃ (u v : Nat) (xs : List String) (bs : List Bool), r.root = some (u : Int) ∧
    r.table.Path u xs bs v ∧ xs.map values = bs.map some ∧
    ((∃ b, r.table.entries[v]? = some (.terminal (some b)) ∧ r.evaluate values = .ok (some b) ∧
        xs.length < r.size) ∨
      ∃ x low high, r.table.entries[v]? = some (.test (some x) low high) ∧ values x = none ∧
        r.evaluate values = .error (.unbound (some x)) ∧ (xs ++ [x]).length < r.size)

namespace Diagram

variable {d : Diagram}

theorem halts_reduce (h : d.tree.Proper) (e : Bool) (values : Valuation) :
    (d.reduce e).Halts values := by
  obtain ⟨p, hplace, hp⟩ := place?_reduce h e
  have hroot : (d.reduce e).root = some ((p.val : Nat) : Int) := by rw [root_reduce h e, hp]
  have hevaluate : (d.reduce e).evaluate values = (d.reduce e).table.follow values p := by
    rw [Reduced.evaluate, hplace]
  have hproper : ((d.reduce e).table.unfold p).Proper := by
    rw [hp, unfold_identity h e (shape_mem_shapes_tree d e)]
    exact proper_restored_tree h e
  obtain ⟨xs, bs, v, hpath, hvalues, hend⟩ := Table.exists_path_follow hproper values
  have hlength := hpath.add_length_le
  rw [← hpath.length_eq] at hlength
  have hlt := p.isLt
  refine ⟨p, v, xs, bs, hroot, hpath, hvalues, ?_⟩
  rw [hevaluate]
  rcases hend with ⟨b, hv, hb⟩ | ⟨x, low, high, hv, hx, hmissing⟩
  · exact Or.inl ⟨b, hv, hb, by omega⟩
  · have hpositive := ((d.reduce e).table.ordered v _ hv).1
    refine Or.inr ⟨x, low, high, hv, hx, hmissing, ?_⟩
    rw [List.length_append, List.length_singleton]
    omega

/-- **Every reduced diagram has the form.** Let the tests of a diagram name literals and its terminals
    have truth values, whatever it shares. No check of reduction fails, and what it gives is well
    formed: numbered from zero on, with successors before their tests, without two terminals of one
    value, two tests of one key or, with elimination, a test of no effect, and with the root as the
    last identity, from which all others are reached. Its identities are those of the nodes below the
    root. So it can always be read back, and evaluated under any values: that ends after fewer tests
    than there are nodes. -/
theorem reduce_wellFormed (h : d.tree.Proper) (e : Bool) :
    (d.reduceTraced e).outcome = .ok (d.reduce e) ∧
    (d.reduce e).WellFormed e ∧
    (∀ p, p < (d.reduce e).size ↔
      ∃ u, d.table.Reaches d.root u ∧ (Reduction.run d e).identity u = some p) ∧
    (∃ d', (d.reduce e).toDiagram = .ok d') ∧
    ∀ values, (d.reduce e).Halts values := by
  obtain ⟨d', hd', -⟩ := exists_toDiagram h e
  exact ⟨outcome_reduceTraced h e, wellFormed_reduce h e, exists_identity_iff h e, ⟨d', hd'⟩,
    halts_reduce h e⟩

/-- The root of the twins collapses to a branch, and with it the second twin to the first. What is
    left are a test and two terminals. -/
theorem reduce_wellFormed_twinTests :
    twinTests.Proper ∧ ((ofTree twinTests).reduce true).WellFormed true ∧
      ((ofTree twinTests).reduce true).size = 3 ∧
      ((ofTree twinTests).reduce true).Halts fun name => if name = "a" then some true else none := by
  have h := proper_ofTree proper_twinTests
  obtain ⟨-, hform, -, -, hhalts⟩ := reduce_wellFormed h true
  refine ⟨proper_twinTests, hform, ?_, hhalts _⟩
  rw [size_reduce h, tree_ofTree proper_twinTests]
  decide

end Diagram

end PropDiagram
