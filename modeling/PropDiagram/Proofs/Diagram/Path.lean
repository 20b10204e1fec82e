import PropDiagram.Proofs.Diagram.DecisionTree

set_option autoImplicit false

/-! # Paths through diagrams

A path goes down a table from test to test: at each it takes one of the two branches, low for false
and high for true. It is known by the literals it tests and the branches it takes
(`Table.Path`). Places decrease along a path, so a path from a node is no longer than the place of
the node (`Table.Path.add_length_le`), and goes on until it comes to a terminal.

Values of the literals pick one path: it ends at a terminal, or at a test of a literal that has no
value, and this is what following a diagram amounts to (`Table.exists_path_follow`). From the root of
a complete tree, every choice of branches for the names of its order is a path to a terminal, and
there are no others (`Table.exists_path_of_tests`, `Table.Path.names_of_tests`). -/

namespace PropDiagram

theorem of_both_branches {P : Nat → Prop} {low high : Nat} (hlow : P low) (hhigh : P high)
    (b : Bool) : P (if b then high else low) := by
  cases b with
  | false => exact hlow
  | true => exact hhigh

namespace Table

variable {t : Table}

/-! ## Paths -/

/-- A path from one node to another: the literals that it tests, and the branch it takes at each. -/
inductive Path (t : Table) : Nat → List String → List Bool → Nat → Prop
  | stop (u : Nat) : Path t u [] [] u
  | go {u v low high : Nat} {x : String} {b : Bool} {xs : List String} {bs : List Bool}
    (hentry : t.entries[u]? = some (.test (some x) low high))
    (hrest : Path t (if b then high else low) xs bs v) : Path t u (x :: xs) (b :: bs) v

namespace Path

variable {u v w : Nat} {xs ys : List String} {bs cs : List Bool}

theorem length_eq (h : t.Path u xs bs v) : xs.length = bs.length := by
  induction h with
  | stop u => rfl
  | go _ _ ih => rw [List.length_cons, List.length_cons, ih]

/-- Every step leads to an earlier place. -/
theorem add_length_le (h : t.Path u xs bs v) : v + bs.length ≤ u := by
  induction h with
  | stop u => exact Nat.le_refl u
  | @go u v low high x b xs bs hentry _ ih =>
      obtain ⟨hlow, hhigh⟩ := t.ordered u _ hentry
      have hlt := of_both_branches (P := (· < u)) hlow hhigh b
      rw [List.length_cons]
      omega

theorem reaches (h : t.Path u xs bs v) : t.Reaches u v := by
  induction h with
  | stop u => exact .refl u
  | @go u v low high x b xs bs hentry _ ih =>
      cases b with
      | false => exact .low (test?_of_entry hentry) ih
      | true => exact .high (test?_of_entry hentry) ih

theorem append (h : t.Path u xs bs v) (h' : t.Path v ys cs w) :
    t.Path u (xs ++ ys) (bs ++ cs) w := by
  induction h with
  | stop u => exact h'
  | go hentry _ ih => exact .go hentry (ih h')

theorem unique (h : t.Path u xs bs v) (h' : t.Path u ys bs w) : xs = ys ∧ v = w := by
  induction h generalizing ys with
  | stop u =>
      cases h'
      exact ⟨rfl, rfl⟩
  | go hentry _ ih =>
      cases h' with
      | go hentry' hrest' =>
          rw [hentry] at hentry'
          cases hentry'
          obtain ⟨rfl, rfl⟩ := ih hrest'
          exact ⟨rfl, rfl⟩

theorem concat (h : t.Path u xs bs v) {x : String} {low high : Nat}
    (hentry : t.entries[v]? = some (.test (some x) low high)) (b : Bool) :
    t.Path u (xs ++ [x]) (bs ++ [b]) (if b then high else low) :=
  h.append (.go hentry (.stop _))

/-- At any time on its way, a path is at a test of the next literal. -/
theorem exists_test (h : t.Path u xs bs v) {k : Nat} (hk : k < xs.length) :
    ∃ w low high, t.Path u (xs.take k) (bs.take k) w ∧
      t.entries[w]? = some (.test xs[k] low high) := by
  induction h generalizing k with
  | stop u => simp at hk
  | @go u v low high x b xs bs hentry _ ih =>
      cases k with
      | zero => exact ⟨u, low, high, .stop u, hentry⟩
      | succ k =>
          obtain ⟨w, l, r, hpath, hw⟩ := ih (Nat.lt_of_succ_lt_succ hk)
          exact ⟨w, l, r, .go hentry hpath, hw⟩

end Path

/-! ## Where paths lead -/

theorem Reaches.exists_path {u v : Nat} (h : t.Reaches u v) (hproper : (t.unfold u).Proper) :
    ∃ xs bs, t.Path u xs bs v := by
  induction h with
  | refl u => exact ⟨[], [], .stop u⟩
  | @low u v name low high htest _ ih =>
      rw [unfold_of_test htest] at hproper
      obtain ⟨x, rfl⟩ := Option.isSome_iff_exists.1 hproper.1
      obtain ⟨xs, bs, hpath⟩ := ih hproper.2.1
      exact ⟨x :: xs, false :: bs, .go (entry_of_test htest) hpath⟩
  | @high u v name low high htest _ ih =>
      rw [unfold_of_test htest] at hproper
      obtain ⟨x, rfl⟩ := Option.isSome_iff_exists.1 hproper.1
      obtain ⟨xs, bs, hpath⟩ := ih hproper.2.2
      exact ⟨x :: xs, true :: bs, .go (entry_of_test htest) hpath⟩

theorem exists_path_terminal {u : Nat} (h : (t.unfold u).Proper) :
    ∃ xs bs v b, t.Path u xs bs v ∧ t.entries[v]? = some (.terminal (some b)) := by
  induction u using Nat.strongRecOn with
  | ind u ih =>
      rcases cases_entry_of_proper h with ⟨b, hentry, -⟩ | ⟨x, low, high, hentry, hlow, -, hnode⟩
      · exact ⟨[], [], u, b, .stop u, hentry⟩
      · rw [hnode] at h
        obtain ⟨xs, bs, v, b, hpath, hv⟩ := ih low hlow h.2.1
        exact ⟨x :: xs, false :: bs, v, b, .go hentry hpath, hv⟩

/-- Values of the literals pick a path. It ends at a terminal, whose value is what following the
    diagram gives, or at a test of a literal without value, which following the diagram misses. -/
theorem exists_path_follow {u : Nat} (h : (t.unfold u).Proper) (values : Valuation) :
    ∃ xs bs v, t.Path u xs bs v ∧ xs.map values = bs.map some ∧
      ((∃ b, t.entries[v]? = some (.terminal (some b)) ∧ t.follow values u = .ok (some b)) ∨
        ∃ x low high, t.entries[v]? = some (.test (some x) low high) ∧ values x = none ∧
          t.follow values u = .error (.unbound (some x))) := by
  rw [follow_eq]
  induction u using Nat.strongRecOn with
  | ind u ih =>
      rcases cases_entry_of_proper h with ⟨b, hentry, hleaf⟩ |
        ⟨x, low, high, hentry, hlow, hhigh, hnode⟩
      · rw [hleaf]
        exact ⟨[], [], u, .stop u, rfl, Or.inl ⟨b, hentry, rfl⟩⟩
      · rw [hnode] at h ⊢
        rw [Tree.follow, Option.bind_some]
        cases hx : values x with
        | none => exact ⟨[], [], u, .stop u, rfl, Or.inr ⟨x, low, high, hentry, hx, rfl⟩⟩
        | some b =>
            have hlt := of_both_branches (P := (· < u)) hlow hhigh b
            have hproper := of_both_branches (P := fun v => (t.unfold v).Proper) h.2.1 h.2.2 b
            obtain ⟨xs, bs, v, hpath, hvalues, hend⟩ := ih _ hlt hproper
            refine ⟨x :: xs, b :: bs, v, .go hentry hpath, by simp [hx, hvalues], ?_⟩
            cases b <;> exact hend

/-! ## Paths of complete trees -/

/-- Where a table unfolds to a complete tree, every choice of branches is a path that tests the
    names in order and ends at a terminal. -/
theorem exists_path_of_tests {u : Nat} {order : List String} (h : (t.unfold u).Tests order)
    {bs : List Bool} (hbs : bs.length = order.length) :
    ∃ v b, t.Path u order bs v ∧ t.entries[v]? = some (.terminal (some b)) ∧
      (t.unfold u).along bs = some b := by
  induction order generalizing u bs with
  | nil =>
      obtain ⟨b, hleaf⟩ := h.exists_leaf
      rw [List.length_nil, List.length_eq_zero_iff] at hbs
      rw [hbs, hleaf]
      exact ⟨u, b, .stop u, entry_of_unfold_leaf hleaf, rfl⟩
  | cons x xs ih =>
      obtain ⟨l, r, hnode, hl, hr⟩ := h.exists_node
      obtain ⟨low, high, hentry, rfl, rfl⟩ := entry_of_unfold_node hnode
      cases bs with
      | nil => simp at hbs
      | cons b bs =>
          have hnext := of_both_branches (P := fun v => (t.unfold v).Tests xs) hl hr b
          obtain ⟨v, c, hpath, hv, halong⟩ := ih hnext (Nat.succ.inj hbs)
          refine ⟨v, c, .go hentry hpath, hv, ?_⟩
          rw [hnode]
          cases b <;> exact halong

/-- Where a table unfolds to a complete tree, a path tests the first names of the order, and the rest
    of them are tested from where it ends. -/
theorem Path.exists_rest {u v : Nat} {order xs : List String} {bs : List Bool}
    (hpath : t.Path u xs bs v) (h : (t.unfold u).Tests order) :
    ∃ rest, order = xs ++ rest ∧ (t.unfold v).Tests rest := by
  induction hpath generalizing order with
  | stop u => exact ⟨order, rfl, h⟩
  | @go u v low high x b xs bs hentry _ ih =>
      cases order with
      | nil =>
          obtain ⟨c, hleaf⟩ := h.exists_leaf
          rw [unfold_eq, hentry] at hleaf
          cases hleaf
      | cons y ys =>
          obtain ⟨l, r, hnode, hl, hr⟩ := h.exists_node
          rw [unfold_eq, hentry, Tree.node.injEq, Option.some.injEq] at hnode
          obtain ⟨rfl, rfl, rfl⟩ := hnode
          have hnext := of_both_branches (P := fun v => (t.unfold v).Tests ys) hl hr b
          obtain ⟨rest, rfl, hrest⟩ := ih hnext
          exact ⟨rest, rfl, hrest⟩

/-- Where a table unfolds to a complete tree, a path to a terminal tests exactly the names. -/
theorem Path.names_of_tests {u v : Nat} {order xs : List String} {bs : List Bool}
    (hpath : t.Path u xs bs v) (h : (t.unfold u).Tests order) {value : Option Bool}
    (hv : t.entries[v]? = some (.terminal value)) : xs = order := by
  obtain ⟨rest, rfl, hrest⟩ := hpath.exists_rest h
  cases rest with
  | nil => rw [List.append_nil]
  | cons y ys =>
      obtain ⟨l, r, hnode, -, -⟩ := hrest.exists_node
      rw [unfold_eq, hv] at hnode
      cases hnode

end Table

end PropDiagram
