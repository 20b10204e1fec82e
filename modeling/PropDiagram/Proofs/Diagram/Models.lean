import PropDiagram.Proofs.Diagram.Canonical
import PropDiagram.Proofs.Diagram.Share

set_option autoImplicit false

/-! # Counting the models of a formula

The reduced diagram of a formula has the share of its decision tree, with elimination as without. In
a complete tree that share is the number of assignments that lead to true, so counting gives the
number of models over the names in any order (`Diagram.count_reduce_build`).

Without elimination every branch leads to the next level (`Diagram.level_branches`), so that only
whole numbers enter. -/

namespace PropDiagram

open Powers

namespace Reduced

/-! ## Levels -/

theorem exists_lastPosition? {name : String} {order : List String} (h : name ∈ order) (i : Nat) :
    ∃ j, lastPosition? name order i = some j := by
  induction order generalizing i with
  | nil => simp at h
  | cons x xs ih =>
      rw [lastPosition?]
      cases hrest : lastPosition? name xs (i + 1) with
      | some j => exact ⟨j, rfl⟩
      | none =>
          by_cases hx : x = name
          · exact ⟨i, if_pos hx⟩
          · obtain ⟨j, hj⟩ := ih ((List.mem_cons.1 h).resolve_left (Ne.symm hx)) (i + 1)
            rw [hrest] at hj
            cases hj

theorem lastPosition?_of_not_mem {name : String} {order : List String} (h : name ∉ order)
    (i : Nat) : lastPosition? name order i = none := by
  induction order generalizing i with
  | nil => rfl
  | cons x xs ih =>
      rw [List.mem_cons, not_or] at h
      rw [lastPosition?, ih h.2]
      exact if_neg (Ne.symm h.1)

theorem lastPosition?_append_cons {name : String} {before after : List String} (h : name ∉ after)
    (i : Nat) : lastPosition? name (before ++ name :: after) i = some (i + before.length) := by
  induction before generalizing i with
  | nil =>
      rw [List.nil_append, lastPosition?, lastPosition?_of_not_mem h]
      exact if_pos rfl
  | cons x xs ih =>
      rw [List.cons_append, lastPosition?, ih]
      simp only [List.length_cons, Option.some.injEq]
      omega

/-- The level of a test is the number of names tested before, if no name is tested twice. -/
theorem level_of_suffix {order xs : List String} (hnodup : order.Nodup) {x : String}
    (hxs : x :: xs <:+ order) (low high : Nat) :
    level order (.test (some x) low high) = .ok (order.length - (xs.length + 1)) := by
  obtain ⟨before, rfl⟩ := hxs
  have hx : x ∉ xs := (List.nodup_cons.1 (List.nodup_append.1 hnodup).2.1).1
  rw [level, lastPosition?_append_cons hx]
  simp

end Reduced

/-! ## Reduced diagrams of complete trees -/

namespace Diagram

variable {d : Diagram} {order : List String}

theorem isSome_of_terminal (h : d.tree.Proper) {e : Bool} {u : Nat} {v : Option Bool}
    (hv : (d.reduce e).table.entries[u]? = some (.terminal v)) : v.isSome = true := by
  obtain ⟨s, hs, -, hentry⟩ := exists_shape_of_entry h hv
  have hsettled := (Tree.closed_postorder _).settled_entry (proper_of_mem_postorder h) hs
  rw [← hentry, Reduced.settled, Entry.terminal.injEq] at hsettled
  rw [← hsettled]
  rfl

theorem exists_level (h : d.tree.Tests order) {names : List String} (hnames : order ⊆ names)
    {e : Bool} {u : Nat} {x : Entry} (hx : (d.reduce e).table.entries[u]? = some x) :
    ∃ i, Reduced.level names x = .ok i := by
  obtain ⟨s, hs, -, rfl⟩ := exists_shape_of_entry h.proper hx
  cases s with
  | terminal value => exact ⟨_, rfl⟩
  | test p q =>
      obtain ⟨r, hr, hrep, -, -⟩ := (Tree.closed_postorder d.tree).exists_representative hs
      obtain ⟨name, low, high, hnode, -⟩ := (Tree.closed_postorder d.tree).exists_node hs
      rw [hnode, Option.some.injEq] at hrep
      subst hrep
      obtain ⟨xs, hxs, htests⟩ := h.exists_suffix hr
      cases xs with
      | nil => exact absurd htests id
      | cons y ys =>
          have hname : name = some y := htests.1
          obtain ⟨i, hi⟩ := Reduced.exists_lastPosition?
            (hnames (hxs.subset (List.mem_cons_self))) 0
          refine ⟨i, ?_⟩
          rw [Tree.entry, hnode, Option.bind_some, Tree.name?, hname, Reduced.level, hi]

/-- Over any names that include those of the order, the reduced diagram can be counted with
    fractions. -/
theorem exists_leveled_reduce (h : d.tree.Tests order) (e : Bool) {names : List String}
    (hnames : order ⊆ names) :
    ∃ levels, Reduced.Leveled (fun _ => True) (d.reduce e).table names levels := by
  have hlevel : ∀ u : Nat, ∃ i, ∀ x, (d.reduce e).table.entries[u]? = some x →
      Reduced.level names x = .ok i := by
    intro u
    cases hu : (d.reduce e).table.entries[u]? with
    | none => exact ⟨0, fun x hx => by cases hx⟩
    | some x =>
        obtain ⟨i, hi⟩ := exists_level h hnames hu
        refine ⟨i, fun y hy => ?_⟩
        cases hy
        exact hi
  choose levels hlevels using hlevel
  exact ⟨levels, fun u v => isSome_of_terminal h.proper, hlevels, fun _ _ _ _ _ => ⟨trivial, trivial⟩⟩

theorem level_entry (h : d.tree.Tests order) (hnodup : order.Nodup) {s : Tree}
    (hs : s ∈ d.tree.postorder) {xs : List String} (hxs : xs <:+ order) (htests : s.Tests xs) :
    Reduced.level order (Tree.entry false d.tree.postorder s.erased)
      = .ok (order.length - xs.length) := by
  cases xs with
  | nil =>
      obtain ⟨b, rfl⟩ := htests.exists_leaf
      show Except.ok order.eraseDups.length = _
      rw [eraseDups_of_nodup hnodup]
      rfl
  | cons x xs =>
      obtain ⟨low, high, rfl, -, -⟩ := htests.exists_node
      rw [h.entry_erased hs]
      exact Reduced.level_of_suffix hnodup hxs _ _

theorem level_place (h : d.tree.Tests order) (hnodup : order.Nodup) {s : Tree}
    (hs : s ∈ d.tree.postorder) {xs : List String} (hxs : xs <:+ order) (htests : s.Tests xs) :
    ∃ x, (d.reduce false).table.entries[(Tree.shapes false d.tree.postorder).idxOf s.erased]?
        = some x ∧
      Reduced.level order x = .ok (order.length - xs.length) :=
  ⟨_, getElem?_reduce h.proper (Tree.erased_mem_shapes hs), level_entry h hnodup hs hxs htests⟩

/-- Without elimination, over the order itself, the branches of a test lead to the next level. -/
theorem level_branches (h : d.tree.Tests order) (hnodup : order.Nodup) {u : Nat}
    {name : Option String} {low high : Nat}
    (hu : (d.reduce false).table.entries[u]? = some (.test name low high)) {v : Nat}
    (hv : v = low ∨ v = high) :
    ∃ x i, (d.reduce false).table.entries[v]? = some x ∧
      Reduced.level order (.test name low high) = .ok i ∧ Reduced.level order x = .ok (i + 1) := by
  obtain ⟨s, hs, -, hentry⟩ := exists_shape_of_entry h.proper hu
  obtain ⟨r, hr, rfl⟩ := Tree.mem_shapes_iff.1 hs
  rw [Tree.shape_false] at hentry
  obtain ⟨xs, hxs, htests⟩ := h.exists_suffix hr
  cases xs with
  | nil =>
      obtain ⟨b, rfl⟩ := htests.exists_leaf
      cases hentry
  | cons x xs =>
      have hlevel := level_entry h hnodup hr hxs htests
      rw [← hentry] at hlevel
      obtain ⟨l, t, rfl, hl, ht⟩ := htests.exists_node
      obtain ⟨hlmem, htmem⟩ := (Tree.closed_postorder d.tree).branches hr
      have hrest : xs <:+ order := (List.suffix_cons x xs).trans hxs
      have hnext : order.length - xs.length = order.length - (x :: xs).length + 1 := by
        have := hxs.length_le
        rw [List.length_cons] at this ⊢
        omega
      rw [Tree.erased, Tree.entry, Entry.test.injEq] at hentry
      obtain ⟨-, rfl, rfl⟩ := hentry
      rcases hv with rfl | rfl
      · obtain ⟨y, hy, hynext⟩ := level_place h hnodup hlmem hrest hl
        exact ⟨y, _, hy, hlevel, hnext ▸ hynext⟩
      · obtain ⟨y, hy, hynext⟩ := level_place h hnodup htmem hrest ht
        exact ⟨y, _, hy, hlevel, hnext ▸ hynext⟩

/-- Without elimination, over the order itself, only whole numbers enter the count. -/
theorem leveled_reduce_next (h : d.tree.Tests order) (hnodup : order.Nodup) :
    ∃ levels, Reduced.Leveled (fun k => 0 ≤ k) (d.reduce false).table order levels := by
  obtain ⟨levels, hlevels⟩ := exists_leveled_reduce h false (List.Subset.refl order)
  refine ⟨levels, hlevels.terminal, hlevels.level, ?_⟩
  intro u name low high hu
  have hbranch : ∀ v, v = low ∨ v = high → (0 : Int) ≤ (levels v : Int) - levels u - 1 := by
    intro v hv
    obtain ⟨x, i, hx, hi, hnext⟩ := level_branches h hnodup hu hv
    have hu' := hlevels.level u _ hu
    have hv' := hlevels.level v _ hx
    rw [hi, Except.ok.injEq] at hu'
    rw [hnext, Except.ok.injEq] at hv'
    omega
  exact ⟨hbranch low (Or.inl rfl), hbranch high (Or.inr rfl)⟩

theorem share_reduce (h : d.tree.Proper) (e : Bool) :
    ∃ p : Fin (d.reduce e).size, (d.reduce e).place? (d.reduce e).root = some p ∧
      ((d.reduce e).table.unfold p).erased.share = d.tree.erased.share := by
  obtain ⟨p, hplace, hp⟩ := place?_reduce h e
  refine ⟨p, hplace, ?_⟩
  rw [hp, unfold_identity h e (shape_mem_shapes_tree d e), Tree.erased_restored, Tree.share_shape]

end Diagram

/-! ## Models -/

/-- The assignments to the names under which the formula is true. -/
def Formula.models [DepthLimits] (f : Formula String) (order : List String) : List Assignment :=
  ((List.range (2 ^ order.length)).map (Assignment.numbered order)).filter fun a =>
    f.evaluate a.valuation = .ok true

/-- The share of a complete tree, among the assignments to its names, is the number of those that
    lead to true. -/
theorem Tree.Tests.share_eq {order : List String} {t : Tree} (h : t.Tests order) :
    2 ^ (order.length : Int) * t.erased.share
      = (((List.range (2 ^ order.length)).countP fun i =>
          t.along (Assignment.branches order i) = some true : Nat) : ℚ) := by
  induction order generalizing t with
  | nil =>
      obtain ⟨b, rfl⟩ := h.exists_leaf
      cases b <;> simp [erased, Shape.share, along]
  | cons x xs ih =>
      obtain ⟨low, high, rfl, hlow, hhigh⟩ := h.exists_node
      have hpow : 2 ^ (x :: xs).length = 2 ^ xs.length + 2 ^ xs.length := by
        rw [List.length_cons, Nat.pow_succ, Nat.mul_two]
      have hcountlow : ((List.range (2 ^ xs.length)).countP fun i =>
            (node (some x) low high).along (Assignment.branches (x :: xs) i) = some true)
          = (List.range (2 ^ xs.length)).countP fun i =>
            low.along (Assignment.branches xs i) = some true := by
        refine List.countP_congr fun i hi => ?_
        rw [Assignment.branches_cons_of_lt x xs (List.mem_range.1 hi)]
        rfl
      have hcounthigh : (((List.range (2 ^ xs.length)).map (2 ^ xs.length + ·)).countP fun i =>
            (node (some x) low high).along (Assignment.branches (x :: xs) i) = some true)
          = (List.range (2 ^ xs.length)).countP fun i =>
            high.along (Assignment.branches xs i) = some true := by
        rw [List.countP_map]
        refine List.countP_congr fun i hi => ?_
        rw [Function.comp_apply, Assignment.branches_cons_add x xs (List.mem_range.1 hi)]
        rfl
      rw [hpow, List.range_add, List.countP_append, hcountlow, hcounthigh, Nat.cast_add, ← ih hlow,
        ← ih hhigh, List.length_cons, Nat.cast_succ, zpow_add_one₀ (by norm_num), erased,
        Shape.share]
      ring

namespace Diagram

variable {d : Diagram} {f : Formula String} {order : Option (List String)} {limits : Limits}

theorem length_models [DepthLimits] (h : (build f order limits).outcome = .ok d) :
    (f.models (order.getD f.names)).length
      = (List.range (2 ^ (order.getD f.names).length)).countP fun i =>
          d.tree.along (Assignment.branches (order.getD f.names) i) = some true := by
  obtain ⟨-, -, hvalues⟩ := tests_of_build h
  rw [Formula.models, ← List.countP_eq_length_filter, List.countP_map]
  refine List.countP_congr fun i _ => ?_
  obtain ⟨b, hb, halong⟩ := hvalues (Assignment.branches (order.getD f.names) i) (by simp)
  rw [Assignment.zip_branches] at hb
  simp [hb, halong]

/-- The reduced diagram counts the models of the formula, with elimination as without, and over the
    names in any order. Without elimination and over the order of the diagram, every branch leads to
    a later level, so no exponent is negative and the count is a whole number. -/
theorem count_reduce_build [DepthLimits] (h : (build f order limits).outcome = .ok d) :
    (∀ (e : Bool) (names : List String), names.Perm (order.getD f.names) →
      (d.reduce e).countWith .rational names
        = .ok ((f.models (order.getD f.names)).length : ℚ)) ∧
    (d.reduce false).count (order.getD f.names)
      = .ok (.exact (f.models (order.getD f.names)).length) ∧
    (∀ (u : Nat) (name : Option String) (low high : Nat),
      (d.reduce false).table.entries[u]? = some (.test name low high) →
      ∀ v, v = low ∨ v = high → ∃ x i j, (d.reduce false).table.entries[v]? = some x ∧
        Reduced.level (order.getD f.names) (.test name low high) = .ok i ∧
        Reduced.level (order.getD f.names) x = .ok j ∧ 0 ≤ (j : Int) - i - 1) := by
  obtain ⟨hnodup, htests, -⟩ := tests_of_build h
  have hshare := htests.share_eq
  rw [← length_models h] at hshare
  refine ⟨?_, ?_, ?_⟩
  · intro e names hperm
    obtain ⟨levels, hlevels⟩ := exists_leveled_reduce htests e hperm.symm.subset
    obtain ⟨p, hp, hroot⟩ := share_reduce htests.proper e
    obtain ⟨c, hc, rfl⟩ := Reduced.countWith_of_leveled hlevels Arithmetic.exact_rational hp
    rw [hc, hroot, ← hshare, eraseDups_of_nodup (hperm.nodup_iff.2 hnodup), hperm.length_eq]
  · obtain ⟨levels, hlevels⟩ := leveled_reduce_next htests hnodup
    obtain ⟨p, hp, hroot⟩ := share_reduce htests.proper false
    obtain ⟨c, hc, n, rfl, hn⟩ := Reduced.countWith_of_leveled hlevels Arithmetic.exact_quantity hp
    rw [hroot, eraseDups_of_nodup hnodup, hshare, Nat.cast_inj] at hn
    rw [Reduced.count, hc, hn]
  · intro u name low high hu v hv
    obtain ⟨x, i, hx, hi, hnext⟩ := level_branches htests hnodup hu hv
    exact ⟨x, i, i + 1, hx, hi, hnext, by omega⟩

/-- With elimination the tests of `C` merge with those of `B`, and over the names in reverse the test
    of `D` lies above that of `B`. -/
theorem count_reduce_build_merged :
    let f := Formula.apply "AND" [.literal "D",
      .apply "OR" [.apply "AND" [.apply "NOT" [.literal "A"], .literal "B"],
        .apply "AND" [.literal "A", .literal "C"]]]
    ∃ d, (build f (some ["A", "B", "C", "D"]) .usual).outcome = .ok d ∧
      ["D", "C", "B", "A"].Perm ["A", "B", "C", "D"] ∧
      (d.reduce true).countWith .rational ["D", "C", "B", "A"] = .ok 4 := by
  intro f
  have hbuild : (build f (some ["A", "B", "C", "D"]) .usual).outcome = .ok _ := rfl
  have hperm : ["D", "C", "B", "A"].Perm ["A", "B", "C", "D"] := by decide
  refine ⟨_, hbuild, hperm, ?_⟩
  rw [(count_reduce_build hbuild).1 true _ hperm]
  have hmodels : (f.models ["A", "B", "C", "D"]).length = 4 := by decide +kernel
  rw [Option.getD_some, hmodels]
  rfl

end Diagram

end PropDiagram
