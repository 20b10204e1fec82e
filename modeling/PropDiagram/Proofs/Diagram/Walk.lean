import PropDiagram.Proofs.Diagram.Composition
import PropDiagram.Proofs.Diagram.DecisionTree
import PropDiagram.Proofs.Diagram.Depiction

set_option autoImplicit false

/-! # Reading a drawing

Whoever looks at a drawing starts at its last node and follows, from a node that shows a literal, the
edge labeled with the value of the literal, until no edge leaves the node (`Multigraph.Walk`). Where
several edges answer to a value, or none does, a walk does not go on, so a walk is decided by the
values (`Walk.unique`).

In a drawing that shows the entries of a table exactly one edge answers to each value of a test
(`Drawing.Depicts.exists_chosen`), although two branches to one node are drawn as one edge. Where the
table unfolds to a complete tree, the walk spells out the branches of the tree
(`Drawing.Depicts.exists_walk`). -/

namespace PropDiagram

/-! ## Walks -/

namespace Multigraph

variable {m : Multigraph} {values : Valuation}

/-- The edges that leave a node and answer to the truth value of its literal. -/
def chosen (m : Multigraph) (u : Int) (b : Bool) : List StyledEdge :=
  (m.leaving u).filter fun e => e.label = some "F/T" ∨ e.label = some (if b then "T" else "F")

def shown (m : Multigraph) (u : Int) : Option String := (m.nodes.get? u).bind NodeStyle.label

/-- A walk from a node: the literals that it tests in order, and the node where it ends. -/
inductive Walk (m : Multigraph) (values : Valuation) : Int → List String → Int → Prop
  | stop {u : Int} (h : m.leaving u = []) : Walk m values u [] u
  /-- The node shows a literal, and one edge answers to the value of the literal. -/
  | go {u w : Int} {x : String} {b : Bool} {e : StyledEdge} {xs : List String}
    (hshown : m.shown u = some x) (hb : values x = some b) (hchosen : m.chosen u b = [e])
    (hrest : Walk m values e.target xs w) : Walk m values u (x :: xs) w

/-- The node with the greatest number. -/
def IsLast (m : Multigraph) (u : Int) : Prop := u ∈ m.nodes.keys ∧ ∀ v ∈ m.nodes.keys, v ≤ u

/-- Whether a walk from the last node ends at a node of this style. -/
def LeadsTo (m : Multigraph) (values : Valuation) (style : NodeStyle) : Prop :=
  ∃ u xs w, m.IsLast u ∧ m.Walk values u xs w ∧ m.nodes.get? w = some style

theorem leaving_ne_nil_of_chosen {u : Int} {b : Bool} {e : StyledEdge} (h : m.chosen u b = [e]) :
    m.leaving u ≠ [] := by
  intro hnone
  rw [chosen, hnone] at h
  cases h

theorem Walk.unique {u w w' : Int} {xs xs' : List String} (h : m.Walk values u xs w)
    (h' : m.Walk values u xs' w') : xs = xs' ∧ w = w' := by
  induction h generalizing xs' with
  | stop hnone =>
      cases h' with
      | stop => exact ⟨rfl, rfl⟩
      | go _ _ hchosen _ => exact absurd hnone (leaving_ne_nil_of_chosen hchosen)
  | go hshown hb hchosen _ ih =>
      cases h' with
      | stop hnone => exact absurd hnone (leaving_ne_nil_of_chosen hchosen)
      | go hshown' hb' hchosen' hrest' =>
          rw [hshown, Option.some.injEq] at hshown'
          subst hshown'
          rw [hb, Option.some.injEq] at hb'
          subst hb'
          rw [hchosen, List.cons.injEq] at hchosen'
          obtain ⟨rfl, -⟩ := hchosen'
          obtain ⟨rfl, rfl⟩ := ih hrest'
          exact ⟨rfl, rfl⟩

theorem IsLast.unique {u v : Int} (hu : m.IsLast u) (hv : m.IsLast v) : u = v :=
  Int.le_antisymm (hv.2 u hu.1) (hu.2 v hv.1)

/-- Where a walk from the last node ends decides where all of them do. -/
theorem leadsTo_iff {u w : Int} {xs : List String} {style style' : NodeStyle} (hu : m.IsLast u)
    (hwalk : m.Walk values u xs w) (hw : m.nodes.get? w = some style) :
    m.LeadsTo values style' ↔ style' = style := by
  constructor
  · rintro ⟨v, ys, w', hv, hwalk', hw'⟩
    obtain rfl := hu.unique hv
    obtain ⟨-, rfl⟩ := hwalk.unique hwalk'
    rw [hw, Option.some.injEq] at hw'
    exact hw'.symm
  · rintro rfl
    exact ⟨u, xs, w, hu, hwalk, hw⟩

/-- Whether walks through a multigraph find the values of a formula. Where edges leave a node,
    exactly one answers to each truth value; and if all names of the order are bound, the walk from
    the last node tests them one by one and ends at a node that shows the value, in its color. -/
structure Decides [DepthLimits] (m : Multigraph) (order : List String) (f : Formula String) :
    Prop where
  chosen : ∀ u ∈ m.nodes.keys, m.leaving u ≠ [] → ∀ b, ∃ e, m.chosen u b = [e]
  walk : ∀ values : Valuation, (∀ x ∈ order, (values x).isSome = true) →
    ∃ b u w, f.evaluate values = .ok b ∧ m.IsLast u ∧ m.Walk values u order w ∧
      m.leaving w = [] ∧ m.nodes.get? w = some ⟨some (Text.ofBool b), Palette.usual (some b)⟩

/-- Where walks find the values of a formula, they lead to nothing else. -/
theorem Decides.leadsTo_iff [DepthLimits] {order : List String} {f : Formula String}
    (h : m.Decides order f) (hbound : ∀ x ∈ order, (values x).isSome = true) {b : Bool} (hb : f.evaluate values = .ok b)
    (style : NodeStyle) :
    m.LeadsTo values style ↔ style = ⟨some (Text.ofBool b), Palette.usual (some b)⟩ := by
  obtain ⟨c, u, w, hc, hu, hwalk, -, hw⟩ := h.walk values hbound
  rw [hb, Except.ok.injEq] at hc
  subst hc
  exact Multigraph.leadsTo_iff hu hwalk hw

end Multigraph

/-! ## Drawings of tables -/

namespace Drawing.Depicts

open Multigraph

variable {palette : Palette} {es : List Entry} {g : Drawing} {u : Nat}

theorem get?_nodes (h : g.Depicts palette es) {e : Entry} (hu : es[u]? = some e) :
    (ofDrawing g).nodes.get? u = some ⟨some e.label.shown, e.color palette⟩ := by
  rw [nodes_ofDrawing h.linked, get?_drawnNodes, h.label, h.color, hu]
  rfl

theorem keys_nodes (h : g.Depicts palette es) :
    (ofDrawing g).nodes.keys = (List.range es.length).map fun u : Nat => (u : Int) := by
  rw [nodes_ofDrawing h.linked, keys_drawnNodes, h.keys]

theorem isLast (h : g.Depicts palette es) (hu : es.length = u + 1) : (ofDrawing g).IsLast u := by
  rw [IsLast, h.keys_nodes]
  constructor
  · exact List.mem_map.2 ⟨u, List.mem_range.2 (by omega), rfl⟩
  · intro v hv
    obtain ⟨w, hw, rfl⟩ := List.mem_map.1 hv
    have := List.mem_range.1 hw
    omega

theorem leaving_eq (h : g.Depicts palette es) {e : Entry} (hu : es[u]? = some e) :
    (ofDrawing g).leaving u
      = e.branches.eraseDups.map fun v => ⟨u, v, e.edgeLabel v⟩ := by
  have hmem : (u : Int) ∈ g.labels.keys :=
    (h.mem_keys_iff u).2 ⟨u, (List.getElem?_eq_some_iff.1 hu).1, rfl⟩
  rw [leaving_ofDrawing h.linked hmem, edgesFrom, h.successors, hu]
  refine List.map_congr_left fun v _ => ?_
  rw [h.edgeLabel, hu]
  rfl

theorem leaving_terminal (h : g.Depicts palette es) {value : Option Bool}
    (hu : es[u]? = some (.terminal value)) : (ofDrawing g).leaving u = [] := by
  rw [h.leaving_eq hu]
  rfl

/-- Exactly one edge answers to each value of a test, and it leads to the branch for the value. -/
theorem exists_chosen (h : g.Depicts palette es) {name : Option String} {low high : Nat}
    (hu : es[u]? = some (.test name low high)) (b : Bool) :
    ∃ label, (ofDrawing g).chosen u b = [⟨u, if b then high else low, label⟩] := by
  rw [chosen, h.leaving_eq hu, Entry.branches]
  by_cases heq : (low : Int) = high
  · refine ⟨some "F/T", ?_⟩
    simp [List.eraseDups_cons, Entry.edgeLabel, branchLabel, heq]
  · refine ⟨some (if b then "T" else "F"), ?_⟩
    have hne : (high : Int) ≠ low := Ne.symm heq
    cases b <;> simp [List.eraseDups_cons, Entry.edgeLabel, branchLabel, heq, hne]

/-- Where edges leave a node at all, exactly one answers to each value. -/
theorem exists_chosen_of_leaving (h : g.Depicts palette es) {v : Int}
    (hv : v ∈ (ofDrawing g).nodes.keys) (hleaving : (ofDrawing g).leaving v ≠ []) (b : Bool) :
    ∃ e, (ofDrawing g).chosen v b = [e] := by
  rw [h.keys_nodes] at hv
  obtain ⟨u, hu, rfl⟩ := List.mem_map.1 hv
  obtain ⟨e, hentry⟩ : ∃ e, es[u]? = some e :=
    ⟨_, List.getElem?_eq_getElem (List.mem_range.1 hu)⟩
  cases e with
  | terminal value => exact absurd (h.leaving_terminal hentry) hleaving
  | test name low high =>
      obtain ⟨label, hchosen⟩ := h.exists_chosen hentry b
      exact ⟨_, hchosen⟩

/-- From the place of a complete tree, the walk tests the names of the tree in order, and ends at a
    terminal with the value that the tree leads to. -/
theorem exists_walk {t : Table} (h : g.Depicts palette t.entries.toList) {values : Valuation}
    {xs : List String} (hbound : ∀ x ∈ xs, (values x).isSome = true)
    (htests : (t.unfold u).Tests xs) :
    ∃ (w : Nat) (b : Bool), (ofDrawing g).Walk values u xs w ∧ (ofDrawing g).leaving w = [] ∧
      (ofDrawing g).nodes.get? w = some ⟨some (Text.ofBool b), palette (some b)⟩ ∧
      (t.unfold u).along (values.branches xs) = some b := by
  induction xs generalizing u with
  | nil =>
      obtain ⟨b, hleaf⟩ := htests.exists_leaf
      have hentry := Table.entry_of_unfold_leaf hleaf
      rw [← Array.getElem?_toList] at hentry
      have hstop := h.leaving_terminal hentry
      refine ⟨u, b, .stop hstop, hstop, h.get?_nodes hentry, ?_⟩
      rw [hleaf]
      rfl
  | cons x xs ih =>
      obtain ⟨l, r, hnode, hl, hr⟩ := htests.exists_node
      obtain ⟨low, high, hentry, hlow, hhigh⟩ := Table.entry_of_unfold_node hnode
      rw [← Array.getElem?_toList] at hentry
      obtain ⟨b, hb⟩ := Option.isSome_iff_exists.1 (hbound x (by simp))
      have hshown : (ofDrawing g).shown u = some x := by
        rw [shown, h.get?_nodes hentry]
        rfl
      obtain ⟨label, hchosen⟩ := h.exists_chosen hentry b
      -- The edge for the value leads to the place of the branch for the value.
      have hnext : (t.unfold (if b then high else low)).Tests xs := by
        cases b with
        | false => exact hlow ▸ hl
        | true => exact hhigh ▸ hr
      obtain ⟨w, c, hwalk, hstop, hstyle, halong⟩ :=
        ih (fun y hy => hbound y (List.mem_cons_of_mem x hy)) hnext
      refine ⟨w, c, .go hshown hb hchosen ?_, hstop, hstyle, ?_⟩
      · cases b <;> exact hwalk
      · rw [hnode, Valuation.branches, List.map_cons, hb, Option.getD_some, Tree.along, ← halong]
        cases b with
        | false => exact congrArg (fun t : Tree => t.along _) hlow.symm
        | true => exact congrArg (fun t : Tree => t.along _) hhigh.symm

end Drawing.Depicts

/-! ## The root comes last -/

namespace Shape

theorem sizeOf_le_of_mem_postorder {r s : Shape} (h : r ∈ s.postorder) : sizeOf r ≤ sizeOf s := by
  induction s with
  | terminal value =>
      rw [postorder, List.mem_singleton] at h
      exact Nat.le_of_eq (congrArg sizeOf h)
  | test low high ihl ihh =>
      simp only [postorder, List.mem_append, List.mem_singleton] at h
      rw [test.sizeOf_spec]
      rcases h with (h | h) | rfl
      · have := ihl h
        omega
      · have := ihh h
        omega
      · exact Nat.le_of_eq (test.sizeOf_spec low high)

theorem exists_postorder_eq (s : Shape) : ∃ before, s.postorder = before ++ [s] ∧ s ∉ before := by
  cases s with
  | terminal value => exact ⟨[], rfl, by simp⟩
  | test low high =>
      refine ⟨low.postorder ++ high.postorder, rfl, ?_⟩
      rw [List.mem_append]
      rintro (h | h)
      all_goals
        have := sizeOf_le_of_mem_postorder h
        rw [test.sizeOf_spec] at this
        omega

end Shape

/-- The shape of a tree is the last of the shapes of its subtrees. -/
theorem Tree.idxOf_shape_succ (e : Bool) (t : Tree) :
    (shapes e t.postorder).length = (shapes e t.postorder).idxOf (t.shape e) + 1 := by
  obtain ⟨before, heq, hnew⟩ := (t.shape e).exists_postorder_eq
  rw [shapes, eraseDups_map_shape, heq, eraseDups_concat_of_not_mem hnew,
    List.idxOf_append_of_notMem (by rwa [List.mem_eraseDups])]
  simp

theorem Table.exists_occurrences_eq (t : Table) (u : Nat) :
    ∃ before, t.occurrences u = before ++ [u] ∧ u ∉ before := by
  cases htest : t.test? u with
  | none =>
      rw [occurrences_of_not_test htest]
      exact ⟨[], rfl, by simp⟩
  | some test =>
      obtain ⟨name, low, high⟩ := test
      rw [occurrences_of_test htest]
      refine ⟨_, rfl, ?_⟩
      rw [List.mem_append, mem_occurrences_iff, mem_occurrences_iff]
      rintro (h | h)
      · exact absurd h.le (by omega)
      · exact absurd h.le (by omega)

/-- The root is the last node of a diagram. -/
theorem Diagram.idxOf_root_succ {d : Diagram} (h : d.tree.Proper) :
    d.nodes.length = d.nodes.idxOf d.root + 1 := by
  obtain ⟨before, heq, hnew⟩ := d.table.exists_occurrences_eq d.root
  rw [nodes_eq h, heq, eraseDups_concat_of_not_mem hnew,
    List.idxOf_append_of_notMem (by rwa [List.mem_eraseDups])]
  simp

/-! ## Drawings of complete trees -/

/-- A drawing unfolds to a tree: it shows a table, and the last node of the table unfolds to it. -/
def Drawing.UnfoldsTo (palette : Palette) (tree : Tree) (g : Drawing) : Prop :=
  ∃ (t : Table) (root : Nat), g.Depicts palette t.entries.toList ∧
    t.entries.toList.length = root + 1 ∧ t.unfold root = tree

/-- The drawing of a complete tree finds the values at its branches. -/
theorem Drawing.UnfoldsTo.decides [DepthLimits] {tree : Tree} {g : Drawing}
    (h : g.UnfoldsTo .usual tree) {order : List String} (htests : tree.Tests order) {f : Formula String}
    (hvalues : ∀ values : Valuation, (∀ x ∈ order, (values x).isSome = true) →
      ∃ b, f.evaluate values = .ok b ∧ tree.along (values.branches order) = some b) :
    (Multigraph.ofDrawing g).Decides order f := by
  obtain ⟨t, root, hdepicts, hlength, rfl⟩ := h
  refine ⟨fun u => hdepicts.exists_chosen_of_leaving, ?_⟩
  intro values hbound
  obtain ⟨w, b, hwalk, hstop, hstyle, halong⟩ := hdepicts.exists_walk hbound htests
  obtain ⟨c, hc, hvalue⟩ := hvalues values hbound
  rw [halong, Option.some.injEq] at hvalue
  subst hvalue
  exact ⟨b, root, w, hc, hdepicts.isLast hlength, hwalk, hstop, hstyle⟩

namespace Diagram

variable {d : Diagram} {order : List String}

theorem exists_unfoldsTo (h : d.tree.Tests order) (palette : Palette) :
    ∃ g, d.draw palette = .ok g ∧ g.UnfoldsTo palette d.tree := by
  obtain ⟨g, hg, hdepicts⟩ := exists_depicts h.proper palette
  have hbottom := bottomUp_nodes h.proper
  have hordered : Ordered (d.table.entriesOf d.nodes).toArray := by
    intro u e hu
    rw [List.getElem?_toArray] at hu
    exact hbottom.fits u e hu
  refine ⟨g, hg, ⟨_, hordered⟩, d.nodes.idxOf d.root, hdepicts, ?_, ?_⟩
  · rw [← idxOf_root_succ h.proper]
    exact d.table.length_entriesOf d.nodes
  · exact Table.unfold_entriesOf hbottom rfl ((mem_nodes_iff h.proper _).2 (.refl _))

theorem exists_unfoldsTo_reduce (h : d.tree.Tests order) (palette : Palette) :
    ∃ g, (d.reduce false).draw palette = .ok g ∧ g.UnfoldsTo palette d.tree := by
  obtain ⟨g, hg, hdepicts⟩ := (d.reduce false).exists_depicts palette
  refine ⟨g, hg, _, (Tree.shapes false d.tree.postorder).idxOf (d.tree.shape false), hdepicts,
    ?_, ?_⟩
  · rw [entries_reduce h.proper, Tree.entries, List.length_map, ← Tree.idxOf_shape_succ]
  · rw [unfold_identity h.proper false (shape_mem_shapes_tree d false), restored_of_tests h]

end Diagram

end PropDiagram
