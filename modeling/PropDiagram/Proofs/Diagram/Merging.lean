import PropDiagram.Proofs.Diagram.Path

set_option autoImplicit false

/-! # When merging keeps the meaning

The key of reduction leaves out the literal, so tests of different literals can be merged, and then
the reduced diagram asks for the wrong one. Nothing else goes wrong: where every node that is kept
tests the literal that its identity has (`Diagram.MergesAlike`), the reduced diagram has the value
that the diagram leads to.

The two are followed side by side. A test that is kept and its identity ask for the same literal and
go on to the same side; at a test that is eliminated only the diagram moves, and since its branches
have one identity, it does not matter where to (`Diagram.follow_restored`).

Without elimination, a diagram whose nodes at one distance from the root test one literal merges only
such tests, since its unfolding is a complete tree (`Diagram.Layered.exists_tests`). -/

namespace PropDiagram

namespace Diagram

variable {d : Diagram} {e : Bool} {values : Valuation}

/-- The node is eliminated: elimination is asked for and its branches have one identity. -/
def IsEliminated (d : Diagram) (e : Bool) (low high : Nat) : Prop :=
  e = true ∧ (Reduction.run d e).identity low = (Reduction.run d e).identity high

/-- Whether reduction merges only tests of the same literal: every test below the root that is not
    eliminated has the literal that its identity has in the reduced diagram. -/
def MergesAlike (d : Diagram) (e : Bool) : Prop :=
  ∀ (u : Nat) (x : Option String) (low high : Nat), d.table.Reaches d.root u →
    d.table.entries[u]? = some (.test x low high) → ¬d.IsEliminated e low high →
    ∃ p l r, (Reduction.run d e).identity u = some p ∧
      (d.reduce e).table.entries[p]? = some (.test x l r)

/-- Whether the values bind all literals of the diagram. -/
def Binds (d : Diagram) (values : Valuation) : Prop :=
  ∀ (u : Nat) (x : String) (low high : Nat), d.table.Reaches d.root u →
    d.table.entries[u]? = some (.test (some x) low high) → (values x).isSome = true

/-! ## Following both -/

theorem isEliminated_iff (h : d.tree.Proper) (e : Bool) {u low high : Nat} {name : Option String}
    (hlow : d.table.Reaches d.root low) (hhigh : d.table.Reaches d.root high)
    (hnode : d.table.unfold u = .node name (d.table.unfold low) (d.table.unfold high)) :
    d.IsEliminated e low high ↔ (d.table.unfold u).isKept e = false := by
  rw [IsEliminated, identity_eq_iff h e hlow hhigh, hnode, Tree.isKept]
  simp

theorem MergesAlike.restored_eq (hm : d.MergesAlike e) (h : d.tree.Proper) {u low high : Nat}
    {x : String} (hu : d.table.Reaches d.root u)
    (hentry : d.table.entries[u]? = some (.test (some x) low high))
    (hnode : d.table.unfold u = .node (some x) (d.table.unfold low) (d.table.unfold high))
    (hkept : (d.table.unfold u).isKept e = true) (hnot : ¬d.IsEliminated e low high) :
    Tree.restored e d.tree.postorder ((d.table.unfold u).shape e)
      = .node (some x) (Tree.restored e d.tree.postorder ((d.table.unfold low).shape e))
          (Tree.restored e d.tree.postorder ((d.table.unfold high).shape e)) := by
  obtain ⟨p, l, r, hp, hliteral⟩ := hm u (some x) low high hu hentry hnot
  have hshape : (d.table.unfold u).shape e ∈ Tree.shapes e d.tree.postorder :=
    Tree.shape_mem_shapes hu.unfold_mem_postorder
  rw [identity_run h e hu, Option.some.injEq] at hp
  rw [← hp, getElem?_reduce h hshape, Option.some.injEq] at hliteral
  rw [hnode] at hkept hliteral ⊢
  rw [Tree.shape_of_isKept hkept] at hliteral ⊢
  rw [Tree.entry, Entry.test.injEq] at hliteral
  rw [Tree.restored, hliteral.1]

/-- What is read back for a node leads where the node leads. -/
theorem follow_restored (h : d.tree.Proper) (hm : d.MergesAlike e) (hbinds : d.Binds values)
    {u : Nat} (hu : d.table.Reaches d.root u) :
    (Tree.restored e d.tree.postorder ((d.table.unfold u).shape e)).follow values
      = (d.table.unfold u).follow values := by
  induction u using Nat.strongRecOn with
  | ind u ih =>
      rcases Table.cases_entry_of_proper (hu.proper h) with ⟨b, -, hleaf⟩ |
        ⟨x, low, high, hentry, hltlow, hlthigh, hnode⟩
      · rw [hleaf]
        rfl
      · have hlow := hu.trans (.low (Table.test?_of_entry hentry) (.refl _))
        have hhigh := hu.trans (.high (Table.test?_of_entry hentry) (.refl _))
        have ihlow := ih low hltlow hlow
        have ihhigh := ih high hlthigh hhigh
        obtain ⟨b, hb⟩ := Option.isSome_iff_exists.1 (hbinds u x low high hu hentry)
        have heliminated := isEliminated_iff h e hlow hhigh hnode
        cases hkept : (d.table.unfold u).isKept e with
        | true =>
            -- Both ask for the literal and take the same branch.
            have hnot : ¬d.IsEliminated e low high := by
              rw [heliminated, hkept]
              decide
            rw [hm.restored_eq h hu hentry hnode hkept hnot, hnode, Tree.follow, Tree.follow,
              Option.bind_some, hb]
            cases b with
            | false => exact ihlow
            | true => exact ihhigh
        | false =>
            -- Only the node moves. Its branches have one shape, which is its own.
            have hsame := (identity_eq_iff h e hlow hhigh).1 (heliminated.2 hkept).2
            rw [hnode] at hkept ⊢
            rw [Tree.shape_of_not_isKept hkept, Tree.follow, Option.bind_some, hb]
            cases b with
            | false => exact ihlow
            | true => exact hsame ▸ ihhigh

/-- Where only tests of the same literal are merged, the reduced diagram has the value that the
    diagram leads to. -/
theorem exists_evaluate_reduce (h : d.tree.Proper) (hm : d.MergesAlike e)
    (hbinds : d.Binds values) :
    ∃ xs bs v b, d.table.Path d.root xs bs v ∧ xs.map values = bs.map some ∧
      d.table.entries[v]? = some (.terminal (some b)) ∧
      (d.reduce e).evaluate values = .ok (some b) := by
  have hevaluate : (d.reduce e).evaluate values = d.table.follow values d.root := by
    rw [evaluate_reduce h, Table.follow_eq]
    exact follow_restored h hm hbinds (.refl _)
  obtain ⟨xs, bs, v, hpath, hvalues, ⟨b, hv, hb⟩ | ⟨x, low, high, hv, hx, -⟩⟩ :=
    Table.exists_path_follow h values
  · exact ⟨xs, bs, v, b, hpath, hvalues, hv, hevaluate.trans hb⟩
  · have hbound := hbinds v x low high hpath.reaches hv
    rw [hx] at hbound
    cases hbound

/-! ## Layers -/

/-- Whether all paths from the root to a terminal are equally long, and all nodes at the same
    distance from the root test the same literal. A literal may recur at several distances. -/
structure Layered (d : Diagram) : Prop where
  length : ∀ (xs ys : List String) (bs cs : List Bool) (u v : Nat) (a b : Option Bool),
    d.table.Path d.root xs bs u → d.table.entries[u]? = some (.terminal a) →
    d.table.Path d.root ys cs v → d.table.entries[v]? = some (.terminal b) →
    xs.length = ys.length
  literal : ∀ (xs ys : List String) (bs cs : List Bool) (u v low high low' high' : Nat)
    (x y : Option String),
    d.table.Path d.root xs bs u → d.table.entries[u]? = some (.test x low high) →
    d.table.Path d.root ys cs v → d.table.entries[v]? = some (.test y low' high') →
    xs.length = ys.length → x = y

theorem Layered.tests_unfold (hl : d.Layered) (h : d.tree.Proper) {order : List String}
    {cs : List Bool} {w : Nat} {c : Option Bool} (horder : d.table.Path d.root order cs w)
    (hw : d.table.entries[w]? = some (.terminal c)) {xs : List String} {bs : List Bool} {u : Nat}
    (hpath : d.table.Path d.root xs bs u) :
    (d.table.unfold u).Tests (order.drop xs.length) := by
  induction u using Nat.strongRecOn generalizing xs bs with
  | ind u ih =>
      have hproper := hpath.reaches.proper h
      rcases Table.cases_entry_of_proper hproper with ⟨b, hentry, hleaf⟩ |
        ⟨x, low, high, hentry, hltlow, hlthigh, hnode⟩
      · have hlength := hl.length _ _ _ _ _ _ _ _ hpath hentry horder hw
        rw [hleaf, hlength, List.drop_length]
        rfl
      · -- A path goes on to a terminal, so the order does not end here.
        obtain ⟨ys, ds, v, b, hrest, hv⟩ := Table.exists_path_terminal hproper
        have hlt : xs.length < order.length := by
          rw [← hl.length _ _ _ _ _ _ _ _ (hpath.append hrest) hv horder hw, List.length_append]
          cases hrest with
          | stop =>
              rw [hentry] at hv
              cases hv
          | go =>
              rw [List.length_cons]
              omega
        obtain ⟨w', low', high', hprefix, hw'⟩ := horder.exists_test hlt
        have hliteral := hl.literal _ _ _ _ _ _ _ _ _ _ _ _ hpath hentry hprefix hw'
          (by rw [List.length_take]; omega)
        have hlow := ih low hltlow (hpath.concat hentry false)
        have hhigh := ih high hlthigh (hpath.concat hentry true)
        rw [List.length_append, List.length_singleton] at hlow hhigh
        rw [hnode, List.drop_eq_getElem_cons hlt]
        exact ⟨hliteral, hlow, hhigh⟩

/-- A diagram is layered exactly if it unfolds to a complete tree, over an order in which names may
    recur. -/
theorem layered_iff (h : d.tree.Proper) : d.Layered ↔ ∃ order, d.tree.Tests order := by
  constructor
  · intro hl
    obtain ⟨order, cs, w, c, horder, hw⟩ := Table.exists_path_terminal h
    exact ⟨order, hl.tests_unfold h horder hw (.stop d.root)⟩
  · rintro ⟨order, htests⟩
    refine ⟨?_, ?_⟩
    · intro xs ys bs cs u v a b hxs hu hys hv
      rw [hxs.names_of_tests htests hu, hys.names_of_tests htests hv]
    · intro xs ys bs cs u v low high low' high' x y hxs hu hys hv hlength
      obtain ⟨rest, rfl, hrest⟩ := hxs.exists_rest htests
      obtain ⟨rest', heq, hrest'⟩ := hys.exists_rest htests
      obtain ⟨-, rfl⟩ := List.append_inj heq hlength
      rw [Table.unfold_eq, hu] at hrest
      rw [Table.unfold_eq, hv] at hrest'
      cases rest with
      | nil => exact absurd hrest id
      | cons z zs => exact hrest.1.trans hrest'.1.symm

theorem binds_of_tests {order : List String} (h : d.tree.Tests order)
    (hbound : ∀ x ∈ order, (values x).isSome = true) : d.Binds values := by
  intro u x low high hu hentry
  obtain ⟨xs, bs, hpath⟩ := hu.exists_path h.proper
  obtain ⟨rest, rfl, hrest⟩ := hpath.exists_rest h
  rw [Table.unfold_eq, hentry] at hrest
  cases rest with
  | nil => exact absurd hrest id
  | cons y ys =>
      obtain ⟨hx, -⟩ := hrest
      cases hx
      exact hbound x (by simp)

/-- In a complete tree, a node has the literal of its identity. -/
theorem mergesAlike_of_tests {order : List String} (h : d.tree.Tests order) :
    d.MergesAlike false := by
  intro u x low high hu hentry _
  have hmem : d.table.unfold u ∈ d.tree.postorder := hu.unfold_mem_postorder
  have hnode : d.table.unfold u = .node x (d.table.unfold low) (d.table.unfold high) := by
    rw [Table.unfold_eq, hentry]
  have hreduced := getElem?_reduce h.proper (Tree.shape_mem_shapes (e := false) hmem)
  rw [Tree.shape_false, h.entry_erased hmem, hnode, Tree.entryAmong, ← hnode, ← Tree.shape_false]
    at hreduced
  exact ⟨_, _, _, identity_run h.proper false hu, hreduced⟩

/-- **Reduction keeps the meaning where it merges only tests of the same literal.** Let the tests of a
    diagram name literals and its terminals have truth values, whatever it shares and wherever a
    literal is tested again. If every test that is not eliminated has the literal of its identity,
    then for all values that bind the literals of the diagram, the reduced diagram has the value at
    the end of the path that takes the branches for the values. Without elimination this is so for
    every layered diagram. -/
theorem evaluate_reduce_of_mergesAlike (h : d.tree.Proper) :
    (∀ e, d.MergesAlike e → ∀ values, d.Binds values →
      ∃ xs bs v b, d.table.Path d.root xs bs v ∧ xs.map values = bs.map some ∧
        d.table.entries[v]? = some (.terminal (some b)) ∧
        (d.reduce e).evaluate values = .ok (some b)) ∧
    (d.Layered → d.MergesAlike false) := by
  refine ⟨fun e hm values => exists_evaluate_reduce h hm, fun hl => ?_⟩
  obtain ⟨order, htests⟩ := (layered_iff h).1 hl
  exact mergesAlike_of_tests htests

/-- A test of `a` both branches of which test `a` again. -/
def againTests : Tree :=
  .node (some "a") (.node (some "a") (.leaf (some false)) (.leaf (some true)))
    (.node (some "a") (.leaf (some true)) (.leaf (some false)))

/-- The second tests of `a` have different keys, so nothing is merged, and the path for `a` ends at
    false, as the reduced diagram says. -/
theorem evaluate_reduce_againTests :
    let d := ofTree againTests
    let values : Valuation := fun name => if name = "a" then some true else none
    d.tree.Proper ∧ d.Layered ∧ d.Binds values ∧
      (d.reduce false).evaluate values = .ok (some false) ∧
      ∃ xs bs v, d.table.Path d.root xs bs v ∧ xs.map values = bs.map some ∧
        d.table.entries[v]? = some (.terminal (some false)) := by
  intro d values
  have htests : againTests.Tests ["a", "a"] := ⟨rfl, ⟨rfl, rfl, rfl⟩, ⟨rfl, rfl, rfl⟩⟩
  have htree : d.tree = againTests := tree_ofTree htests.proper
  rw [← htree] at htests
  have hlayered : d.Layered := (layered_iff htests.proper).2 ⟨_, htests⟩
  have hbinds : d.Binds values := by
    refine binds_of_tests htests ?_
    simp [values]
  have hfalse : (d.reduce false).evaluate values = .ok (some false) := by decide +kernel
  obtain ⟨hsound, hmerges⟩ := evaluate_reduce_of_mergesAlike htests.proper
  obtain ⟨xs, bs, v, b, hpath, hvalues, hv, hb⟩ := hsound false (hmerges hlayered) values hbinds
  rw [hfalse, Except.ok.injEq] at hb
  exact ⟨htests.proper, hlayered, hbinds, hfalse, xs, bs, v, hpath, hvalues, by rw [hv, hb]⟩

end Diagram

end PropDiagram
