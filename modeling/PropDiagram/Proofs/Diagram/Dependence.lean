import PropDiagram.Proofs.Diagram.Levels

set_option autoImplicit false

/-! # Literals that do not matter

Names that do not occur in a formula may be inserted into its order anywhere. Where such a name is
tested, both branches are the same tree, since the value of the formula does not depend on it: the
decision tree over the longer order is the old one with tests added whose branches are equal
(`Tree.Pads`). Elimination removes exactly those, and what it keeps has the shapes and the literals
that it had before (`Tree.Pads.entries`). Conversely, a test that is kept has different branches, so
the formula depends on its literal. -/

namespace PropDiagram

/-- Whether some two assignments to the names of the order that differ only in `x` give the formula
    different truth values. -/
def Formula.DependsOn [DepthLimits] (f : Formula String) (order : List String) (x : String) :
    Prop :=
  ∃ (g : String → Bool) (b : Bool),
    f.evaluate (Assignment.valuation (order.zip (order.map g))) = .ok b ∧
    f.evaluate (Assignment.valuation (order.zip (order.map (Function.update g x (!g x)))))
      = .ok (!b)

/-! ## Added tests -/

namespace Tree

/-- Whether the first tree is the second one with tests added whose branches are equal. -/
inductive Pads : Tree → Tree → Prop
  | leaf (value : Option Bool) : Pads (leaf value) (leaf value)
  | node (name : Option String) {low high low' high' : Tree} (hlow : Pads low' low)
    (hhigh : Pads high' high) : Pads (node name low' high') (node name low high)
  | added (name : Option String) {branch t : Tree} (h : Pads branch t) :
    Pads (node name branch branch) t

theorem Tests.ext_map {order : List String} (hnodup : order.Nodup) {s t : Tree}
    (hs : s.Tests order) (ht : t.Tests order)
    (h : ∀ g : String → Bool, s.along (order.map g) = t.along (order.map g)) : s = t := by
  refine hs.ext ht fun bs hbs => ?_
  obtain ⟨g, rfl⟩ := Assignment.exists_map_eq hnodup hbs
  exact h g

theorem Tests.exists_along_ne {order : List String} {s t : Tree} (hs : s.Tests order)
    (ht : t.Tests order) (h : s ≠ t) :
    ∃ bs : List Bool, bs.length = order.length ∧ s.along bs ≠ t.along bs := by
  by_contra hnone
  refine h (hs.ext ht fun bs hbs => ?_)
  by_contra hne
  exact hnone ⟨bs, hbs, hne⟩

/-- The branches of a complete tree have the values of the tree for either value of its first
    name. -/
theorem along_branch {x : String} {xs : List String} (hnodup : (x :: xs).Nodup) (low high : Tree)
    (g : String → Bool) (b : Bool) :
    (node (some x) low high).along ((x :: xs).map (Function.update g x b))
      = (if b then high else low).along (xs.map g) := by
  obtain ⟨hx, hxs⟩ := List.nodup_cons.1 hnodup
  rw [List.map_cons, Function.update_self, hxs.map_update, if_neg hx, along]
  cases b <;> rfl

/-- A complete tree over a longer order pads the one over the shorter order if the values are the
    same. -/
theorem Tests.pads {order order' : List String} (hsub : order.Sublist order')
    (hnodup : order'.Nodup) {t t' : Tree} (ht : t.Tests order) (ht' : t'.Tests order')
    (h : ∀ g : String → Bool, t'.along (order'.map g) = t.along (order.map g)) : Pads t' t := by
  induction hsub generalizing t t' with
  | slnil =>
      obtain ⟨b, rfl⟩ := ht.exists_leaf
      obtain ⟨c, rfl⟩ := ht'.exists_leaf
      have hvalue : some c = some b := h fun _ => false
      rw [hvalue]
      exact .leaf _
  | @cons xs xs' x hsub ih =>
      obtain ⟨hx, hxs'⟩ := List.nodup_cons.1 hnodup
      obtain ⟨low, high, rfl, hlow, hhigh⟩ := ht'.exists_node
      have hbranch : ∀ (b : Bool) (g : String → Bool),
          (if b then high else low).along (xs'.map g) = t.along (xs.map g) := by
        intro b g
        have hx' : x ∉ xs := fun hmem => hx (hsub.subset hmem)
        rw [← along_branch hnodup, h, (hxs'.sublist hsub).map_update, if_neg hx']
      -- The value of the name makes no difference, so the branches are the same tree.
      have hsame : high = low := hhigh.ext_map hxs' hlow fun g =>
        (hbranch true g).trans (hbranch false g).symm
      rw [hsame]
      exact .added _ (ih hxs' ht hlow (hbranch false))
  | @cons_cons xs xs' x hsub ih =>
      obtain ⟨hx, hxs'⟩ := List.nodup_cons.1 hnodup
      obtain ⟨low, high, rfl, hlow, hhigh⟩ := ht.exists_node
      obtain ⟨low', high', rfl, hlow', hhigh'⟩ := ht'.exists_node
      have hbranch : ∀ (b : Bool) (g : String → Bool),
          (if b then high' else low').along (xs'.map g)
            = (if b then high else low).along (xs.map g) := by
        intro b g
        rw [← along_branch hnodup, h, along_branch (hnodup.sublist (hsub.cons_cons x))]
      exact .node _ (ih hxs' hlow hlow' (hbranch false)) (ih hxs' hhigh hhigh' (hbranch true))

/-! ## Elimination of added tests -/

theorem Pads.shape {t t' : Tree} (h : Pads t' t) : t'.shape true = t.shape true := by
  induction h with
  | leaf value => rfl
  | node name _ _ ihlow ihhigh => rw [Tree.shape, Tree.shape, ihlow, ihhigh]
  | added name _ ih => simp [Tree.shape, ih]

/-- The first tree of a shape that is kept tests the same literal. -/
theorem Pads.representative {t t' : Tree} (h : Pads t' t) (s : Shape) :
    (representative? true t'.postorder s).map name?
      = (representative? true t.postorder s).map name? := by
  induction h with
  | leaf value => rfl
  | @node name low high low' high' hlow hhigh ihlow ihhigh =>
      -- The branches come first and agree by induction; the two roots are kept alike.
      have hkept : (Tree.node name low' high').isKept true
          = (Tree.node name low high).isKept true := by
        rw [isKept, isKept, hlow.shape, hhigh.shape]
      have hlast : (representative? true [Tree.node name low' high'] s).map name?
          = (representative? true [Tree.node name low high] s).map name? := by
        rw [representative?, representative?, List.find?_singleton, List.find?_singleton, hkept,
          (Pads.node name hlow hhigh).shape]
        split <;> rfl
      simp only [postorder, representative?_append, Option.map_or, ihlow, ihhigh, hlast]
  | @added name branch t _ ih =>
      -- The branch is searched twice, and the root is not kept.
      have hlast : representative? true [Tree.node name branch branch] s = none := by
        simp [representative?, isKept]
      rw [postorder, representative?_append, representative?_append, Option.or_self, hlast,
        Option.or_none, ih]

theorem Pads.entries {t t' : Tree} (h : Pads t' t) :
    shapes true t'.postorder = shapes true t.postorder ∧
      entries true t'.postorder = entries true t.postorder := by
  have hshapes : shapes true t'.postorder = shapes true t.postorder := by
    rw [shapes, shapes, eraseDups_map_shape, eraseDups_map_shape, h.shape]
  refine ⟨hshapes, ?_⟩
  rw [Tree.entries, Tree.entries, hshapes]
  refine List.map_congr_left fun s _ => ?_
  cases s with
  | terminal value => rfl
  | test low high =>
      have hname := congrArg (fun name => name.bind id) (h.representative (.test low high))
      simp only [Option.bind_map, Function.id_comp] at hname
      rw [entry, entry, hshapes, hname]

end Tree

/-! ## Diagrams over longer orders -/

namespace Diagram

variable {d d' : Diagram} {f : Formula String} {choice : Option (List String)}
  {limits limits' : Limits} {order' : List String}

/-- A diagram is reduced with elimination as if no test with equal branches were there. -/
theorem reduce_true_of_pads (h : d.tree.Proper) (h' : d'.tree.Proper)
    (hpads : d'.tree.Pads d.tree) : d'.reduce true = d.reduce true := by
  obtain ⟨hshapes, hentries⟩ := hpads.entries
  refine Reduced.eq_of_entries_eq (Array.toList_inj.1 ?_) ?_
  · rw [entries_reduce h true, entries_reduce h' true, hentries]
  · rw [root_reduce h true, root_reduce h' true, hshapes, hpads.shape]

theorem evaluate_of_sublist [DepthLimits] (h : (build f choice limits).outcome = .ok d)
    (hsub : (choice.getD f.names).Sublist order') (g : String → Bool) :
    ∃ b, f.evaluate (Assignment.valuation (order'.zip (order'.map g))) = .ok b ∧
      d.tree.along ((choice.getD f.names).map g) = some b := by
  obtain ⟨-, -, hvalues⟩ := tests_of_build h
  obtain ⟨b, hb, halong⟩ := hvalues ((choice.getD f.names).map g) (List.length_map _)
  exact ⟨b, Formula.evaluate_of_extends (Assignment.extends_zip_map hsub.subset g) hb, halong⟩

theorem exists_build_of_sublist [DepthLimits] (h : (build f choice limits).outcome = .ok d)
    (hsub : (choice.getD f.names).Sublist order') (hnodup : order'.Nodup)
    (hmost : (order'.length : Int) ≤ limits'.most)
    (hlength : order'.length < Assignments.lengthDigits) :
    ∃ d', (build f (some order') limits').outcome = .ok d' := by
  obtain ⟨t, ht⟩ : ∃ t, Tree.ofFormula f order' = .ok t := by
    refine Tree.exists_complete fun bs hbs => ?_
    obtain ⟨g, rfl⟩ := Assignment.exists_map_eq hnodup hbs
    obtain ⟨b, hb, -⟩ := evaluate_of_sublist h hsub g
    exact ⟨b, hb⟩
  exact ⟨ofTree t, build_eq_ok_iff.2 ⟨hmost, hnodup, hlength, t, ht, rfl⟩⟩

theorem pads_of_sublist [DepthLimits] (h : (build f choice limits).outcome = .ok d)
    (h' : (build f (some order') limits').outcome = .ok d')
    (hsub : (choice.getD f.names).Sublist order') : d'.tree.Pads d.tree := by
  obtain ⟨-, htests, -⟩ := tests_of_build h
  obtain ⟨hnodup, htests', hvalues⟩ := tests_of_build h'
  refine htests.pads hsub hnodup htests' fun g => ?_
  obtain ⟨b, hb, halong⟩ := evaluate_of_sublist h hsub g
  obtain ⟨c, hc, halong'⟩ := hvalues (order'.map g) (List.length_map _)
  rw [Option.getD_some, hb, Except.ok.injEq] at hc
  rw [halong, halong', hc]

/-! ## Literals that matter -/

/-- Where the branches of a subtree lead to different values, the formula depends on the name of its
    level. -/
theorem dependsOn_of_along_ne [DepthLimits] (h : (build f choice limits).outcome = .ok d)
    {bs cs : List Bool} {x : String} (hx : (choice.getD f.names)[bs.length]? = some x)
    (hlength : (bs ++ false :: cs).length = (choice.getD f.names).length)
    (hne : d.tree.along (bs ++ false :: cs) ≠ d.tree.along (bs ++ true :: cs)) :
    f.DependsOn (choice.getD f.names) x := by
  obtain ⟨hnodup, -, hvalues⟩ := tests_of_build h
  obtain ⟨g, hg⟩ := Assignment.exists_map_eq hnodup hlength
  obtain ⟨hlt, hget⟩ := List.getElem?_eq_some_iff.1 hx
  have hidx : (choice.getD f.names).idxOf x = bs.length := by
    rw [← hget, hnodup.idxOf_getElem]
  have hfalse : g x = false := by
    have hvalue := congrArg (fun l => l[bs.length]?) hg
    simpa [hx] using hvalue
  have hupdate : (choice.getD f.names).map (Function.update g x (!g x)) = bs ++ true :: cs := by
    rw [hnodup.map_update, if_pos (List.mem_of_getElem? hx), hidx, hg, hfalse]
    simp
  obtain ⟨b, hb, halong⟩ := hvalues (bs ++ false :: cs) hlength
  obtain ⟨c, hc, halong'⟩ := hvalues (bs ++ true :: cs) (by simpa using hlength)
  have hother : c = !b := by
    rw [halong, halong', ne_eq, Option.some.injEq] at hne
    cases b <;> cases c <;> simp_all
  refine ⟨g, b, ?_, ?_⟩
  · rw [hg]
    exact hb
  · rw [hupdate, ← hother]
    exact hc

/-- A test that elimination keeps tests a literal that the formula depends on. -/
theorem dependsOn_of_test [DepthLimits] (h : (build f choice limits).outcome = .ok d) {u : Nat}
    {name : Option String} {low high : Nat}
    (hu : (d.reduce true).table.entries[u]? = some (.test name low high)) :
    ∃ x, name = some x ∧ f.DependsOn (choice.getD f.names) x := by
  obtain ⟨-, htests, -⟩ := tests_of_build h
  obtain ⟨s, hs, -, hentry⟩ := exists_shape_of_entry htests.proper hu
  cases s with
  | terminal value => cases hentry
  | test p q =>
      obtain ⟨r, hr, hrep, hkept, hshape⟩ :=
        (Tree.closed_postorder d.tree).exists_representative hs
      obtain ⟨bs, hbs, rfl⟩ := htests.exists_down hr
      have hlevel := (htests.down hbs).1
      cases hrest : (choice.getD f.names).drop bs.length with
      | nil =>
          rw [hrest] at hlevel
          obtain ⟨b, hleaf⟩ := hlevel.exists_leaf
          rw [hleaf] at hshape
          cases hshape
      | cons x xs =>
          rw [hrest] at hlevel
          obtain ⟨l, r, hnode, hl, hr⟩ := hlevel.exists_node
          have hx : (choice.getD f.names)[bs.length]? = some x := by
            rw [← List.head?_drop, hrest]
            rfl
          have hne : l ≠ r := by
            rintro rfl
            simp [hnode, Tree.isKept] at hkept
          obtain ⟨cs, hcs, halong⟩ := hl.exists_along_ne hr hne
          have hlength : (bs ++ false :: cs).length = (choice.getD f.names).length := by
            have hdrop := congrArg List.length hrest
            rw [List.length_drop, List.length_cons] at hdrop
            rw [List.length_append, List.length_cons, hcs]
            omega
          have hvalues : d.tree.along (bs ++ false :: cs) ≠ d.tree.along (bs ++ true :: cs) := by
            rw [Tree.along_append, Tree.along_append, hnode]
            exact halong
          rw [Tree.entry, hrep, hnode, Entry.test.injEq] at hentry
          exact ⟨x, hentry.1, dependsOn_of_along_ne h hx hlength hvalues⟩

/-- **Elimination leaves the literals that matter.** If names are inserted into the order of a
    diagram anywhere, the diagram can be built as well, within the limits, and with elimination it is
    reduced to the very same diagram, identities and literals included. And every literal that this
    diagram tests is one that the formula depends on. -/
theorem reduce_true_build [DepthLimits] (h : (build f choice limits).outcome = .ok d) :
    (∀ (order' : List String) (limits' : Limits), (choice.getD f.names).Sublist order' →
      order'.Nodup → (order'.length : Int) ≤ limits'.most →
      order'.length < Assignments.lengthDigits →
      ∃ d', (build f (some order') limits').outcome = .ok d' ∧ d'.reduce true = d.reduce true) ∧
    (∀ (u : Nat) (name : Option String) (low high : Nat),
      (d.reduce true).table.entries[u]? = some (.test name low high) →
      ∃ x, name = some x ∧ f.DependsOn (choice.getD f.names) x) := by
  obtain ⟨-, htests, -⟩ := tests_of_build h
  constructor
  · intro order' limits' hsub hnodup hmost hlength
    obtain ⟨d', hd'⟩ := exists_build_of_sublist h hsub hnodup hmost hlength
    obtain ⟨-, htests', -⟩ := tests_of_build hd'
    exact ⟨d', hd', reduce_true_of_pads htests.proper htests'.proper (pads_of_sublist h hd' hsub)⟩
  · intro u name low high hu
    exact dependsOn_of_test h hu

/-- Of `A` and `B` only `A` matters, and `X` and `Y` do not occur at all. -/
theorem reduce_true_build_padded :
    let f := Formula.apply "OR" [.apply "AND" [.literal "A", .literal "B"],
      .apply "AND" [.literal "A", .apply "NOT" [.literal "B"]]]
    ∃ d d', (build f none .usual).outcome = .ok d ∧
      (build f (some ["X", "A", "Y", "B"]) .usual).outcome = .ok d' ∧
      d'.reduce true = d.reduce true ∧
      (d.reduce true).table.entries[2]? = some (.test (some "A") 0 1) ∧
      f.DependsOn ["A", "B"] "A" := by
  intro f
  have hbuild : (build f none .usual).outcome = .ok _ := rfl
  have hentry : ((build f none .usual).outcome.map fun d => (d.reduce true).table.entries[2]?)
      = .ok (some (.test (some "A") 0 1)) := by
    decide +kernel
  rw [hbuild, Except.map, Except.ok.injEq] at hentry
  obtain ⟨d', hd', hreduce⟩ := (reduce_true_build hbuild).1 ["X", "A", "Y", "B"] .usual
    (by decide) (by decide) (by decide) (by decide)
  obtain ⟨x, hx, hdepends⟩ := (reduce_true_build hbuild).2 2 _ _ _ hentry
  cases hx
  exact ⟨_, d', hbuild, hd', hreduce, hentry, hdepends⟩

end Diagram

end PropDiagram
