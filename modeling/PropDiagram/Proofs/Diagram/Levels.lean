import Mathlib.Algebra.BigOperators.Group.Finset.Piecewise
import Mathlib.Data.Finset.Card
import PropDiagram.Proofs.Diagram.Composition
import PropDiagram.Proofs.Diagram.DecisionTree
import PropDiagram.Proofs.Diagram.Depiction

set_option autoImplicit false

/-! # Levels of reduced diagrams

Fixing the first names of an order leaves a function of the names that remain
(`Formula.residual`). The subtree that the branches lead to is the decision tree of this function,
so two subtrees at one level are equal exactly if the functions are, and reduction, which merges
equal subtrees and nothing else, keeps one node for each of the functions (`Diagram.countAt_reduce`).
The size of the reduced diagram is the sum over all levels (`Diagram.size_reduce_build`). -/

namespace PropDiagram

open Powers

/-! ## What remains of a formula -/

namespace Formula

/-- What remains of a formula when some names are fixed, as a function of the rest: its value under
    every assignment to the rest, in the order of their numbers. -/
def residual [DepthLimits] (f : Formula String) (fixed : Assignment) (rest : List String) :
    List (Except Fault Bool) :=
  (List.range (2 ^ rest.length)).map fun i =>
    f.evaluate (fixed ++ Assignment.numbered rest i).valuation

/-- The distinct functions that remain when the first `k` names of the order are fixed in all
    ways. -/
def residuals [DepthLimits] (f : Formula String) (order : List String) (k : Nat) :
    Finset (List (Except Fault Bool)) :=
  (Finset.range (2 ^ k)).image fun i =>
    f.residual (Assignment.numbered (order.take k) i) (order.drop k)

theorem residual_eq_iff [DepthLimits] {f : Formula String} {a b : Assignment} {rest : List String} :
    f.residual a rest = f.residual b rest ↔ ∀ bs : List Bool, bs.length = rest.length →
      f.evaluate (a ++ rest.zip bs).valuation = f.evaluate (b ++ rest.zip bs).valuation := by
  rw [residual, residual, List.map_inj_left]
  constructor
  · intro h bs hbs
    obtain ⟨i, hi, hnumbered⟩ := Assignment.exists_numbered_eq_zip hbs
    have hvalue := h i (List.mem_range.2 hi)
    rwa [hnumbered] at hvalue
  · intro h i _
    obtain ⟨bs, hbs, hnumbered⟩ := Assignment.exists_zip_eq_numbered rest i
    rw [hnumbered]
    exact h bs hbs

end Formula

/-! ## Going down a tree -/

namespace Tree

/-- The subtree that the branches lead to. A leaf has no branches and stays. -/
def down : Tree → (branches : List Bool) → Tree
  | leaf value, _ => leaf value
  | node _ low high, b :: bs => if b then high.down bs else low.down bs
  | node name low high, [] => node name low high

@[simp] theorem down_nil (t : Tree) : t.down [] = t := by cases t <;> rfl

theorem along_append (t : Tree) (bs cs : List Bool) :
    t.along (bs ++ cs) = (t.down bs).along cs := by
  induction bs generalizing t with
  | nil => rw [List.nil_append, down_nil]
  | cons b bs ih =>
      cases t with
      | leaf value => rfl
      | node name low high => cases b <;> exact ih _

theorem down_append (t : Tree) (bs cs : List Bool) : t.down (bs ++ cs) = (t.down bs).down cs := by
  induction bs generalizing t with
  | nil => rw [List.nil_append, down_nil]
  | cons b bs ih =>
      cases t with
      | leaf value => rfl
      | node name low high => cases b <;> exact ih _

theorem Tests.down {order : List String} {t : Tree} (h : t.Tests order) {bs : List Bool}
    (hbs : bs.length ≤ order.length) :
    (t.down bs).Tests (order.drop bs.length) ∧ t.down bs ∈ t.postorder := by
  induction bs generalizing t order with
  | nil =>
      rw [down_nil]
      exact ⟨h, self_mem_postorder t⟩
  | cons b bs ih =>
      cases order with
      | nil => simp at hbs
      | cons x xs =>
          obtain ⟨low, high, rfl, hlow, hhigh⟩ := h.exists_node
          have hlength : bs.length ≤ xs.length := by simpa using hbs
          simp only [postorder, List.mem_append]
          cases b with
          | false =>
              obtain ⟨htests, hmem⟩ := ih hlow hlength
              exact ⟨htests, Or.inl (Or.inl hmem)⟩
          | true =>
              obtain ⟨htests, hmem⟩ := ih hhigh hlength
              exact ⟨htests, Or.inl (Or.inr hmem)⟩

theorem Tests.exists_down {order : List String} {t : Tree} (h : t.Tests order) {s : Tree}
    (hs : s ∈ t.postorder) : ∃ bs : List Bool, bs.length ≤ order.length ∧ t.down bs = s := by
  induction order generalizing t with
  | nil =>
      obtain ⟨b, rfl⟩ := h.exists_leaf
      rw [postorder, List.mem_singleton] at hs
      exact ⟨[], Nat.le_refl 0, hs.symm⟩
  | cons x xs ih =>
      obtain ⟨low, high, rfl, hlow, hhigh⟩ := h.exists_node
      simp only [postorder, List.mem_append, List.mem_singleton] at hs
      rcases hs with (hs | hs) | rfl
      · obtain ⟨bs, hbs, rfl⟩ := ih hlow hs
        exact ⟨false :: bs, Nat.succ_le_succ hbs, rfl⟩
      · obtain ⟨bs, hbs, rfl⟩ := ih hhigh hs
        exact ⟨true :: bs, Nat.succ_le_succ hbs, rfl⟩
      · exact ⟨[], Nat.zero_le _, rfl⟩

end Tree

/-! ## Nodes at a level -/

/-- Whether the entry tests the literal; without a literal, whether it is a terminal. -/
def Entry.isAt (x : Option String) : Entry → Bool
  | terminal _ => x.isNone
  | test name _ _ => x.isSome && name == x

/-- How many nodes test the literal; without a literal, how many terminals there are. -/
def Reduced.countAt (r : Reduced) (x : Option String) : Nat :=
  r.table.entries.toList.countP (Entry.isAt x)

theorem Entry.isAt_inj {x y : Option String} {e : Entry} (hx : e.isAt x = true)
    (hy : e.isAt y = true) : x = y := by
  cases e with
  | terminal value =>
      rw [isAt, Option.isNone_iff_eq_none] at hx hy
      rw [hx, hy]
  | test name low high =>
      rw [isAt, Bool.and_eq_true, beq_iff_eq] at hx hy
      rw [← hx.2, ← hy.2]

theorem Tree.Tests.isAt_entryAmong {order : List String} {t : Tree} (h : t.Tests order)
    (ss : List Shape) : (entryAmong false ss t).isAt order.head? = true := by
  cases order with
  | nil =>
      obtain ⟨b, rfl⟩ := h.exists_leaf
      rfl
  | cons x xs =>
      obtain ⟨low, high, rfl, -, -⟩ := h.exists_node
      simp [entryAmong, Entry.isAt]

theorem level_inj {order : List String} (hnodup : order.Nodup) {i j : Nat} (hi : i ≤ order.length)
    (hj : j ≤ order.length) (h : order[i]? = order[j]?) : i = j := by
  rcases Nat.lt_or_eq_of_le hi with hlt | rfl
  · exact (List.getElem?_inj hlt hnodup).1 h
  · rw [List.getElem?_eq_none (Nat.le_refl _), eq_comm, List.getElem?_eq_none_iff] at h
    exact Nat.le_antisymm h hj

/-! ## Counting -/

/-- Two functions that tell the same items apart have as many values. -/
theorem card_image_congr {ι α β : Type} [DecidableEq α] [DecidableEq β] {s : Finset ι} {f : ι → α}
    {g : ι → β} (h : ∀ i ∈ s, ∀ j ∈ s, f i = f j ↔ g i = g j) :
    (s.image f).card = (s.image g).card := by
  classical
  induction s using Finset.induction_on with
  | empty => rfl
  | insert a s _ ih =>
      have hcard := ih fun i hi j hj =>
        h i (Finset.mem_insert_of_mem hi) j (Finset.mem_insert_of_mem hj)
      have hmem : f a ∈ s.image f ↔ g a ∈ s.image g := by
        rw [Finset.mem_image, Finset.mem_image]
        refine exists_congr fun i => and_congr_right fun hi => ?_
        exact h i (Finset.mem_insert_of_mem hi) a (Finset.mem_insert_self a s)
      rw [Finset.image_insert, Finset.image_insert, Finset.card_insert_eq_ite,
        Finset.card_insert_eq_ite, hcard]
      exact if_congr hmem rfl rfl

/-- If every item has exactly one of some properties, counting by property counts all items. -/
theorem sum_countP {α : Type} {l : List α} {p : Nat → α → Bool} {n : Nat}
    (h : ∀ a ∈ l, ∃ k < n, ∀ j < n, p j a = true ↔ j = k) :
    ∑ k ∈ Finset.range n, l.countP (p k) = l.length := by
  induction l with
  | nil => simp
  | cons a l ih =>
      obtain ⟨k, hk, honly⟩ := h a (by simp)
      have hone : ∑ j ∈ Finset.range n, (if p j a = true then 1 else 0) = 1 := by
        rw [Finset.sum_congr rfl fun j hj => if_congr (honly j (Finset.mem_range.1 hj)) rfl rfl,
          Finset.sum_ite_eq', if_pos (Finset.mem_range.2 hk)]
      simp only [List.countP_cons, Finset.sum_add_distrib,
        ih fun b hb => h b (List.mem_cons_of_mem a hb), hone, List.length_cons]

namespace Diagram

variable {d : Diagram} {order : List String}

theorem isAt_entry (h : d.tree.Tests order) {bs : List Bool} (hbs : bs.length ≤ order.length) :
    (Tree.entry false d.tree.postorder (d.tree.down bs).erased).isAt order[bs.length]? = true := by
  obtain ⟨htests, hmem⟩ := h.down hbs
  rw [h.entry_erased hmem, ← List.head?_drop]
  exact htests.isAt_entryAmong _

/-- Every node of the reduced diagram stands for a subtree, and tests the name of its level. -/
theorem exists_down_of_entry (h : d.tree.Tests order) {u : Nat} {x : Entry}
    (hx : (d.reduce false).table.entries[u]? = some x) :
    ∃ bs : List Bool, bs.length ≤ order.length ∧
      x = Tree.entry false d.tree.postorder (d.tree.down bs).erased := by
  obtain ⟨s, hs, -, rfl⟩ := exists_shape_of_entry h.proper hx
  obtain ⟨r, hr, rfl⟩ := Tree.mem_shapes_iff.1 hs
  obtain ⟨bs, hbs, rfl⟩ := h.exists_down hr
  exact ⟨bs, hbs, by rw [Tree.shape_false]⟩

theorem getElem?_down (h : d.tree.Tests order) {bs : List Bool} (hbs : bs.length ≤ order.length) :
    (d.reduce false).table.entries[
        (Tree.shapes false d.tree.postorder).idxOf (d.tree.down bs).erased]?
      = some (Tree.entry false d.tree.postorder (d.tree.down bs).erased) :=
  getElem?_reduce h.proper (Tree.erased_mem_shapes (h.down hbs).2)

theorem isAt_next (h : d.tree.Tests order) (hnodup : order.Nodup) {k u low high : Nat}
    (hk : k < order.length)
    (hu : (d.reduce false).table.entries[u]? = some (.test order[k]? low high)) {v : Nat}
    (hv : v = low ∨ v = high) :
    ∃ x, (d.reduce false).table.entries[v]? = some x ∧ x.isAt order[k + 1]? = true := by
  obtain ⟨bs, hbs, hentry⟩ := exists_down_of_entry h hu
  have hat := isAt_entry h hbs
  have hat' : Entry.isAt order[k]? (.test order[k]? low high) = true := by
    simp [Entry.isAt, hk]
  rw [← hentry] at hat
  -- The name says which level it is, since no name occurs twice.
  obtain rfl := level_inj hnodup hbs (Nat.le_of_lt hk) (Entry.isAt_inj hat hat')
  have htests := (h.down hbs).1
  rw [List.drop_eq_getElem_cons hk] at htests
  obtain ⟨l, r, hnode, -, -⟩ := htests.exists_node
  rw [h.entry_erased (h.down hbs).2, hnode, Tree.entryAmong, Entry.test.injEq] at hentry
  obtain ⟨-, rfl, rfl⟩ := hentry
  -- One more branch leads from the node to its successor.
  have hnext : ∀ b : Bool, ∃ x, (d.reduce false).table.entries[
        (Tree.shapes false d.tree.postorder).idxOf (if b then r else l).erased]? = some x ∧
      x.isAt order[bs.length + 1]? = true := by
    intro b
    have hdown : d.tree.down (bs ++ [b]) = if b then r else l := by
      rw [Tree.down_append, hnode]
      cases b <;> exact Tree.down_nil _
    have hlength : (bs ++ [b]).length = bs.length + 1 := by simp
    have hle : (bs ++ [b]).length ≤ order.length := by omega
    rw [← hdown]
    exact ⟨_, getElem?_down h hle, hlength ▸ isAt_entry h hle⟩
  rw [Tree.shape_false, Tree.shape_false] at hv
  rcases hv with rfl | rfl
  · exact hnext false
  · exact hnext true

theorem countAt_reduce_shapes (h : d.tree.Tests order) (hnodup : order.Nodup) {k : Nat}
    (hk : k ≤ order.length) :
    (d.reduce false).countAt order[k]? = ((Finset.range (2 ^ k)).image fun i =>
      (d.tree.down (Assignment.branches (order.take k) i)).erased).card := by
  rw [Reduced.countAt, entries_reduce h.proper, Tree.entries, List.countP_map,
    List.countP_eq_length_filter,
    ← List.toFinset_card_of_nodup ((Tree.nodup_shapes _ _).filter _)]
  congr 1
  ext s
  rw [List.mem_toFinset, List.mem_filter, Finset.mem_image, Function.comp_apply]
  constructor
  · rintro ⟨hs, hat⟩
    obtain ⟨r, hr, rfl⟩ := Tree.mem_shapes_iff.1 hs
    obtain ⟨bs, hbs, rfl⟩ := h.exists_down hr
    rw [Tree.shape_false] at hat ⊢
    obtain rfl := level_inj hnodup hbs hk (Entry.isAt_inj (isAt_entry h hbs) hat)
    refine ⟨Assignment.number bs, Finset.mem_range.2 (Assignment.number_lt bs), ?_⟩
    rw [Assignment.branches_number (by simp [hbs])]
  · rintro ⟨i, -, rfl⟩
    have hlength := Assignment.length_branches_take hk i
    have hat := isAt_entry h (hlength.trans_le hk)
    rw [hlength] at hat
    exact ⟨Tree.erased_mem_shapes (h.down (hlength.trans_le hk)).2, hat⟩

/-- Each node is at exactly one level. -/
theorem existsUnique_level (h : d.tree.Tests order) (hnodup : order.Nodup) :
    ∀ x ∈ (d.reduce false).table.entries.toList, ∃ k < order.length + 1,
      ∀ j < order.length + 1, x.isAt order[j]? = true ↔ j = k := by
  intro x hx
  obtain ⟨u, hu⟩ := List.getElem?_of_mem hx
  rw [Array.getElem?_toList] at hu
  obtain ⟨bs, hbs, rfl⟩ := exists_down_of_entry h hu
  refine ⟨bs.length, Nat.lt_succ_of_le hbs, fun j hj => ⟨fun hat => ?_, ?_⟩⟩
  · exact level_inj hnodup (Nat.le_of_lt_succ hj) hbs (Entry.isAt_inj hat (isAt_entry h hbs))
  · rintro rfl
    exact isAt_entry h hbs

/-! ## Levels and what remains -/

variable {f : Formula String} {choice : Option (List String)} {limits : Limits}

theorem evaluate_down [DepthLimits] (h : (build f choice limits).outcome = .ok d) {k : Nat}
    {bs cs : List Bool} (hbs : bs.length = ((choice.getD f.names).take k).length)
    (hcs : cs.length = ((choice.getD f.names).drop k).length) :
    ∃ b, f.evaluate (Assignment.valuation (((choice.getD f.names).take k).zip bs
        ++ ((choice.getD f.names).drop k).zip cs)) = .ok b ∧
      (d.tree.down bs).along cs = some b := by
  obtain ⟨-, -, hvalues⟩ := tests_of_build h
  have hlength : (bs ++ cs).length = (choice.getD f.names).length := by
    rw [List.length_append, hbs, hcs, ← List.length_append, List.take_append_drop]
  obtain ⟨b, hb, halong⟩ := hvalues (bs ++ cs) hlength
  refine ⟨b, ?_, ?_⟩
  · rw [← List.zip_append hbs.symm, List.take_append_drop]
    exact hb
  · rw [← Tree.along_append]
    exact halong

/-- At one level, subtrees have the same shape exactly if the same function remains. -/
theorem erased_down_eq_iff [DepthLimits] (h : (build f choice limits).outcome = .ok d) {k : Nat}
    (hk : k ≤ (choice.getD f.names).length) (i j : Nat) :
    (d.tree.down (Assignment.branches ((choice.getD f.names).take k) i)).erased
        = (d.tree.down (Assignment.branches ((choice.getD f.names).take k) j)).erased ↔
      f.residual (Assignment.numbered ((choice.getD f.names).take k) i)
          ((choice.getD f.names).drop k)
        = f.residual (Assignment.numbered ((choice.getD f.names).take k) j)
          ((choice.getD f.names).drop k) := by
  obtain ⟨-, htests, -⟩ := tests_of_build h
  rw [Formula.residual_eq_iff, ← Assignment.zip_branches, ← Assignment.zip_branches]
  have hlength := Assignment.length_branches ((choice.getD f.names).take k)
  have hdown : ∀ i, (d.tree.down (Assignment.branches ((choice.getD f.names).take k) i)).Tests
      ((choice.getD f.names).drop k) := by
    intro i
    have hbranches := Assignment.length_branches_take hk i
    have hdown := (htests.down (hbranches.trans_le hk)).1
    rwa [hbranches] at hdown
  constructor
  · intro herased cs hcs
    have heq := (hdown i).eq_of_erased_eq (hdown j) herased
    obtain ⟨b, hb, halong⟩ := evaluate_down h (hlength i) hcs
    obtain ⟨c, hc, halong'⟩ := evaluate_down h (hlength j) hcs
    rw [heq, halong', Option.some.injEq] at halong
    rw [hb, hc, halong]
  · intro hvalues
    refine congrArg Tree.erased ((hdown i).ext (hdown j) fun cs hcs => ?_)
    obtain ⟨b, hb, halong⟩ := evaluate_down h (hlength i) hcs
    obtain ⟨c, hc, halong'⟩ := evaluate_down h (hlength j) hcs
    have hvalue := hvalues cs hcs
    rw [hb, hc, Except.ok.injEq] at hvalue
    rw [halong, halong', hvalue]

/-- At every level, there are as many nodes as functions that remain. -/
theorem countAt_reduce [DepthLimits] (h : (build f choice limits).outcome = .ok d) {k : Nat}
    (hk : k ≤ (choice.getD f.names).length) :
    (d.reduce false).countAt (choice.getD f.names)[k]?
      = (f.residuals (choice.getD f.names) k).card := by
  obtain ⟨hnodup, htests, -⟩ := tests_of_build h
  rw [countAt_reduce_shapes htests hnodup hk, Formula.residuals]
  exact card_image_congr fun i _ j _ => erased_down_eq_iff h hk i j

/-! ## Sizes -/

/-- The naive drawing has a node for every node of the diagram, and reduction gives them no more
    identities. -/
theorem exists_draw_size (h : d.tree.Proper) (e : Bool) (palette : Palette) :
    ∃ g, d.draw palette = .ok g ∧ (d.reduce e).size ≤ g.size := by
  obtain ⟨g, hg, hdepicts⟩ := exists_depicts h palette
  refine ⟨g, hg, ?_⟩
  rw [hdepicts.size, Table.length_entriesOf, size_reduce h e,
    ← (Tree.entries_congr (trees_nodes h) e).1]
  refine Nat.le_trans (length_eraseDups_le _) ?_
  rw [List.length_map, List.length_map]

theorem size_reduce_true_le (h : d.tree.Proper) : (d.reduce true).size ≤ (d.reduce false).size := by
  rw [size_reduce h, size_reduce h]
  have hshapes : Tree.shapes true d.tree.postorder
      = ((Tree.shapes false d.tree.postorder).map (Shape.eliminated true)).eraseDups := by
    rw [Tree.shapes, Tree.shapes, map_eraseDups, List.map_map]
    congr 1
    exact List.map_congr_left fun t _ => Tree.shape_or false true t
  rw [hshapes]
  refine Nat.le_trans (length_eraseDups_le _) ?_
  rw [List.length_map]

/-- **The levels of a reduced diagram, and its size.** A test of a name leads to nodes that test the
    next name of the order, or to terminals after the last one. For every name there are exactly as
    many tests as distinct functions of this name and the names after it remain when the names before
    it are fixed in all ways; and there are as many terminals as truth values. So the size of the
    reduced diagram is the sum of these numbers. It is at most the number of nodes of the naive
    drawing, and with elimination no more nodes are left. -/
theorem size_reduce_build [DepthLimits] (h : (build f choice limits).outcome = .ok d) :
    (∀ (k u low high : Nat), k < (choice.getD f.names).length →
      (d.reduce false).table.entries[u]? = some (.test (choice.getD f.names)[k]? low high) →
      ∀ v, v = low ∨ v = high → ∃ x, (d.reduce false).table.entries[v]? = some x ∧
        x.isAt (choice.getD f.names)[k + 1]? = true) ∧
    (∀ k, k ≤ (choice.getD f.names).length →
      (d.reduce false).countAt (choice.getD f.names)[k]?
        = (f.residuals (choice.getD f.names) k).card) ∧
    (d.reduce false).size = ∑ k ∈ Finset.range ((choice.getD f.names).length + 1),
      (f.residuals (choice.getD f.names) k).card ∧
    (∀ palette, ∃ g, d.draw palette = .ok g ∧ (d.reduce false).size ≤ g.size) ∧
    (d.reduce true).size ≤ (d.reduce false).size := by
  obtain ⟨hnodup, htests, -⟩ := tests_of_build h
  refine ⟨?_, fun k => countAt_reduce h, ?_, fun palette => exists_draw_size htests.proper _ palette,
    size_reduce_true_le htests.proper⟩
  · intro k u low high hk hu v hv
    exact isAt_next htests hnodup hk hu hv
  · calc (d.reduce false).size
        = (d.reduce false).table.entries.toList.length := by
          rw [Array.length_toList]
          rfl
      _ = ∑ k ∈ Finset.range ((choice.getD f.names).length + 1),
            (d.reduce false).countAt (choice.getD f.names)[k]? :=
          (sum_countP (existsUnique_level htests hnodup)).symm
      _ = ∑ k ∈ Finset.range ((choice.getD f.names).length + 1),
            (f.residuals (choice.getD f.names) k).card :=
          Finset.sum_congr rfl fun k hk =>
            countAt_reduce h (Nat.le_of_lt_succ (Finset.mem_range.1 hk))

/-- After `A` two functions of `B` and `C` remain, and after `B` two functions of `C`, one of them
    constant: two tests at either level. -/
theorem size_reduce_build_merged :
    let f := Formula.apply "OR" [.apply "AND" [.literal "A", .literal "B"], .literal "C"]
    ∃ d, (build f none .usual).outcome = .ok d ∧ (d.reduce false).countAt (some "C") = 2 ∧
      (d.reduce false).size = 7 := by
  intro f
  have hbuild : (build f none .usual).outcome = .ok _ := rfl
  refine ⟨_, hbuild, ?_, ?_⟩
  · have hcount := (size_reduce_build hbuild).2.1 2 (by decide)
    have hcard : (f.residuals ["A", "B", "C"] 2).card = 2 := by decide +kernel
    exact hcount.trans hcard
  · rw [(size_reduce_build hbuild).2.2.1]
    decide +kernel

end Diagram

end PropDiagram
