import PropDiagram.Proofs.Diagram.Depiction
import PropDiagram.Proofs.Diagram.Path
import PropDiagram.Proofs.Enumeration

set_option autoImplicit false

/-! # Decision trees as truth tables

The decision tree of a formula is its truth table: the paths from the root to the leaves are the rows,
from left to right, and the branches of a path are the binary digits of the number of its row
(`Diagram.build_spellsOut`).

A complete tree over `n` names has `2 ^ n` leaves, below `2 ^ n - 1` tests. As a diagram it has every
test once and of the leaves only the two terminals, so what it draws are the tests and as many
terminals as there are truth values in the table (`Diagram.length_nodes_ofTree`). -/

namespace PropDiagram

open Powers

/-! ## Rows -/

/-- If every assignment has a result, the results are found one after the other. -/
theorem Assignments.mapFrom_eq_ok {β : Type} {order : List String}
    {f : Assignment → Except Fault β} {g : Nat → β}
    (h : ∀ i, f (Assignment.numbered order i) = .ok (g i)) (remaining i : Nat) (done : List β) :
    mapFrom order f remaining i done
      = .ok (done.reverse ++ (List.range' i remaining).map g) := by
  induction remaining generalizing i done with
  | zero => simp [mapFrom]
  | succ remaining ih =>
      rw [mapFrom, h i]
      dsimp only
      rw [ih, List.range'_succ]
      simp

namespace Tree

/-! ## Leaves -/

/-- The leaves of a complete tree, from left to right, are at the branches that the numbers spell
    out. -/
theorem Tests.leaves_eq {order : List String} {t : Tree} (h : t.Tests order) :
    t.leaves = (List.range (2 ^ order.length)).map fun i =>
      t.along (Assignment.branches order i) := by
  induction order generalizing t with
  | nil =>
      obtain ⟨b, rfl⟩ := h.exists_leaf
      rfl
  | cons x xs ih =>
      obtain ⟨low, high, rfl, hlow, hhigh⟩ := h.exists_node
      have hpow : 2 ^ (x :: xs).length = 2 ^ xs.length + 2 ^ xs.length := by
        rw [List.length_cons, Nat.pow_succ, Nat.mul_two]
      rw [leaves, ih hlow, ih hhigh, hpow, List.range_add, List.map_append, List.map_map]
      congr 1
      · refine List.map_congr_left fun i hi => ?_
        rw [Assignment.branches_cons_of_lt x xs (List.mem_range.1 hi)]
        rfl
      · refine List.map_congr_left fun i hi => ?_
        rw [Function.comp_apply, Assignment.branches_cons_add x xs (List.mem_range.1 hi)]
        rfl

theorem Tests.length_leaves {order : List String} {t : Tree} (h : t.Tests order) :
    t.leaves.length = 2 ^ order.length := by
  rw [h.leaves_eq, List.length_map, List.length_range]

theorem size_add_one (t : Tree) : t.size + 1 = 2 * t.leaves.length := by
  induction t with
  | leaf value => rfl
  | node name low high ihl ihh =>
      rw [size, leaves, List.length_append]
      omega

end Tree

/-! ## The nodes of a tree -/

namespace Diagram

theorem size_place (tree : Tree) (entries : Array Entry) :
    (place tree entries).1.size + tree.leaves.length = entries.size + tree.size := by
  induction tree generalizing entries with
  | leaf value => rfl
  | node name low high ihl ihh =>
      have hlow := ihl entries
      have hhigh := ihh (place low entries).1
      simp only [place, Tree.leaves, Tree.size, Array.size_push, List.length_append]
      omega

theorem terminal_of_place {tree : Tree} {entries : Array Entry} {v : Nat} {value : Option Bool}
    (h : (place tree entries).1[v]? = some (.terminal value)) :
    entries[v]? = some (.terminal value) := by
  induction tree generalizing entries with
  | leaf value' => exact h
  | node name low high ihl ihh =>
      simp only [place, Array.getElem?_push] at h
      split at h
      · cases h
      · exact ihl (ihh h)

/-- Whether a table goes on the way the entries do when the tree is listed after them. -/
def Lists (t : Table) (tree : Tree) (entries : Array Entry) : Prop :=
  ∀ v, v < (place tree entries).1.size → t.entries[v]? = (place tree entries).1[v]?

/-- Whether the two terminals come first, false before true. -/
structure Fronted (entries : Array Entry) : Prop where
  size : 2 ≤ entries.size
  terminal : ∀ b : Bool, entries[terminalPlace (some b)]? = some (.terminal (some b))

theorem fronted_terminals : Fronted terminals where
  size := Nat.le_refl 2
  terminal := by decide

theorem Fronted.place {entries : Array Entry} (h : Fronted entries) (tree : Tree) :
    Fronted (place tree entries).1 where
  size := Nat.le_trans h.size (getElem?_place tree entries).1
  terminal := by
    intro b
    have hlt := (Array.getElem?_eq_some_iff.1 (h.terminal b)).1
    rw [(getElem?_place tree entries).2 _ hlt, h.terminal b]

variable {t : Table} {low high : Tree} {entries : Array Entry}

theorem Lists.occurrences_leaf {b : Bool} (hfront : Fronted entries)
    (h : Lists t (.leaf (some b)) entries) :
    t.occurrences (place (.leaf (some b)) entries).2 = [terminalPlace (some b)] := by
  have hlt := (Array.getElem?_eq_some_iff.1 (hfront.terminal b)).1
  have hentry : t.entries[terminalPlace (some b)]? = some (.terminal (some b)) :=
    (h _ hlt).trans (hfront.terminal b)
  exact Table.occurrences_of_not_test (Table.test?_eq_none_of_terminal hentry)

theorem Lists.lowBranch {name : Option String} (h : Lists t (.node name low high) entries) :
    Lists t low entries := by
  obtain ⟨hle, hkeep⟩ := getElem?_place high (place low entries).1
  intro v hv
  have hentry := h v
  simp only [Diagram.place, Array.size_push, Array.getElem?_push] at hentry
  rw [hentry (by omega), if_neg (by omega), hkeep v hv]

theorem Lists.highBranch {name : Option String} (h : Lists t (.node name low high) entries) :
    Lists t high (place low entries).1 := by
  intro v hv
  have hentry := h v
  simp only [Diagram.place, Array.size_push, Array.getElem?_push] at hentry
  rw [hentry (by omega), if_neg (by omega)]

theorem Lists.occurrences_node {name : Option String}
    (h : Lists t (.node name low high) entries) :
    t.occurrences (place (.node name low high) entries).2
      = t.occurrences (place low entries).2 ++ t.occurrences (place high (place low entries).1).2
        ++ [(place high (place low entries).1).1.size] := by
  have hroot := h (place high (place low entries).1).1.size (by simp [Diagram.place])
  simp only [Diagram.place, Array.getElem?_push, if_pos] at hroot
  exact Table.occurrences_of_test (Table.test?_of_entry hroot)

/-- Below the root of a tree that is listed, each test is met once, in the order in which they are
    listed. -/
theorem Lists.tests_occurrences {tree : Tree} (htree : tree.Proper) (hfront : Fronted entries)
    (h : Lists t tree entries) :
    (t.occurrences (place tree entries).2).filter (fun v => 2 ≤ v)
      = List.range' entries.size ((place tree entries).1.size - entries.size) := by
  induction tree generalizing entries with
  | leaf value =>
      obtain ⟨b, rfl⟩ := Option.isSome_iff_exists.1 htree
      rw [h.occurrences_leaf hfront]
      cases b <;> simp [terminalPlace, Diagram.place]
  | node name low high ihl ihh =>
      have hlow := (getElem?_place low entries).1
      have hhigh := (getElem?_place high (place low entries).1).1
      have hsize := (hfront.place low).size
      rw [h.occurrences_node, List.filter_append, List.filter_append, ihl htree.2.1 hfront h.lowBranch,
        ihh htree.2.2 (hfront.place low) h.highBranch]
      simp only [Diagram.place, Array.size_push]
      have hlast : [(place high (place low entries).1).1.size].filter (fun v => 2 ≤ v)
          = [(place high (place low entries).1).1.size] := by
        simp
        omega
      rw [hlast]
      obtain ⟨m, hm⟩ := Nat.exists_eq_add_of_le hlow
      obtain ⟨n, hn⟩ := Nat.exists_eq_add_of_le hhigh
      have hm' : entries.size + m - entries.size = m := by omega
      have hn' : entries.size + m + n - (entries.size + m) = n := by omega
      have hmn : entries.size + m + n + 1 - entries.size = m + n + 1 := by omega
      rw [hn, hm, hm', hn', hmn, List.range'_append_1, List.range'_1_concat, Nat.add_assoc]

/-- Below the root of a tree that is listed, the terminals of the leaves are met from left to
    right. -/
theorem Lists.terminals_occurrences {tree : Tree} (htree : tree.Proper) (hfront : Fronted entries)
    (h : Lists t tree entries) :
    (t.occurrences (place tree entries).2).filter (fun v => v < 2)
      = tree.leaves.map terminalPlace := by
  induction tree generalizing entries with
  | leaf value =>
      obtain ⟨b, rfl⟩ := Option.isSome_iff_exists.1 htree
      rw [h.occurrences_leaf hfront]
      cases b <;> rfl
  | node name low high ihl ihh =>
      have hhigh := (getElem?_place high (place low entries).1).1
      have hsize := (hfront.place low).size
      rw [h.occurrences_node, List.filter_append, List.filter_append, ihl htree.2.1 hfront h.lowBranch,
        ihh htree.2.2 (hfront.place low) h.highBranch, Tree.leaves, List.map_append]
      have hlast : [(place high (place low entries).1).1.size].filter (fun v => v < 2) = [] := by
        simp
        omega
      rw [hlast, List.append_nil]

/-- The nodes of a tree are its tests and the terminals of its leaves. -/
theorem length_nodes_ofTree {tree : Tree} (h : tree.Proper) {values : List Bool}
    (hvalues : tree.leaves = values.map some) :
    (ofTree tree).nodes.length + values.length = tree.size + values.eraseDups.length := by
  have hproper := proper_ofTree h
  have hlists : Lists (ofTree tree).table tree terminals := fun _ _ => rfl
  have hnodes : (ofTree tree).nodes
      = ((ofTree tree).table.occurrences (place tree terminals).2).eraseDups := nodes_eq hproper
  have htests : ((ofTree tree).nodes.filter fun v => 2 ≤ v).length + values.length
      = tree.size := by
    have hsize := size_place tree terminals
    rw [hvalues, List.length_map] at hsize
    have htwo : terminals.size = 2 := rfl
    rw [hnodes, filter_eraseDups, hlists.tests_occurrences h fronted_terminals,
      eraseDups_of_nodup List.nodup_range', List.length_range']
    have hle := (getElem?_place tree terminals).1
    omega
  -- Leaves share a terminal exactly if they have the same value.
  have hinj : ∀ b ∈ values, ∀ c ∈ values, terminalPlace (some b) = terminalPlace (some c) →
      b = c := by
    intro b _ c _
    cases b <;> cases c <;> decide
  have hterminals : ((ofTree tree).nodes.filter fun v => !decide (2 ≤ v)).length
      = values.eraseDups.length := by
    have hlt : (fun v : Nat => !decide (2 ≤ v)) = fun v => decide (v < 2) := by
      funext v
      rw [← decide_not, decide_eq_decide]
      omega
    rw [hlt, hnodes, filter_eraseDups, hlists.terminals_occurrences h fronted_terminals, hvalues,
      List.map_map]
    exact (congrArg List.length (eraseDups_map_of_injOn hinj)).trans (List.length_map _)
  rw [List.length_eq_length_filter_add fun v => decide (2 ≤ v)]
  omega

/-- The drawing of a complete tree has all tests, and a terminal for each value at a leaf. -/
theorem exists_draw_ofTree {order : List String} {tree : Tree} (h : tree.Tests order)
    {values : List Bool} (hvalues : tree.leaves = values.map some) (palette : Palette) :
    ∃ g, (ofTree tree).draw palette = .ok g ∧
      g.size = 2 ^ order.length - 1 + values.eraseDups.length := by
  obtain ⟨g, hg, hdepicts⟩ := exists_depicts (proper_ofTree h.proper) palette
  refine ⟨g, hg, ?_⟩
  have hnodes := length_nodes_ofTree h.proper hvalues
  have hsize := tree.size_add_one
  have hleaves := congrArg List.length hvalues
  rw [h.length_leaves] at hsize hleaves
  rw [List.length_map] at hleaves
  rw [hdepicts.size, Table.length_entriesOf]
  omega

end Diagram

/-! ## The truth table of a formula -/

theorem Assignments.get_number {a : Assignments} (ha : a.order.length < lengthDigits)
    {bs : List Bool} (hbs : bs.length = a.order.length) :
    a.get (Assignment.number bs) = .ok (a.order.zip bs) := by
  have hlt := Assignment.number_lt bs
  rw [hbs] at hlt
  rw [get_of_lt ha hlt, Assignment.numbered_number hbs]

namespace Diagram

variable {d : Diagram} {f : Formula String} {choice : Option (List String)} {limits : Limits}

/-- The leaves of a diagram are the values of the truth table. -/
theorem exists_truthTable [DepthLimits] (h : (build f choice limits).outcome = .ok d) :
    ∃ rows, f.truthTable choice = .ok rows ∧ d.tree.leaves = rows.map fun row => some row.2 := by
  obtain ⟨-, hnodup, hlength, -⟩ := build_eq_ok_iff.1 h
  obtain ⟨-, htests, hvalues⟩ := tests_of_build h
  rw [Formula.truthTable]
  generalize choice.getD f.names = order at *
  -- The value in the row with the number `i`.
  have hrow : ∀ i, ∃ b, f.evaluate (Assignment.numbered order i).valuation = .ok b ∧
      d.tree.along (Assignment.branches order i) = some b := by
    intro i
    rw [← Assignment.zip_branches]
    exact hvalues _ (Assignment.length_branches order i)
  choose value hvalue halong using hrow
  refine ⟨(List.range (2 ^ order.length)).map fun i => (Assignment.numbered order i, value i),
    ?_, ?_⟩
  · have hresult : ∀ i, ((f.evaluate (Assignment.numbered order i).valuation) >>= fun b =>
        pure (Assignment.numbered order i, b)) = .ok (Assignment.numbered order i, value i) := by
      intro i
      rw [hvalue i]
      rfl
    have hrows := Assignments.mapFrom_eq_ok (f := fun a => f.evaluate a.valuation >>= fun b =>
      pure (a, b)) hresult (2 ^ order.length) 0 []
    rw [Assignments.ofOrder, dif_pos hnodup, except_ok_bind, Assignments.mapAll,
      Assignments.length, if_pos hlength, except_ok_bind, hrows, List.range_eq_range']
    rfl
  · rw [htests.leaves_eq, List.map_map]
    exact List.map_congr_left fun i _ => halong i

/-- Whatever building finds wrong, it found it before it had an assignment, or in evaluating the
    formula. -/
theorem fault_of_build [DepthLimits] {e : Fault} (h : (build f choice limits).outcome = .error e) :
    e = .tooManyLiterals (choice.getD f.names).length limits.most ∨ e = .numberTooLong ∨
      e = .duplicateNames (choice.getD f.names) ∨ e = .countlessAssignments ∨
      ∃ a : Assignment, f.evaluate a.valuation = .error e := by
  rw [outcome_build] at h
  generalize choice.getD f.names = order at h ⊢
  split at h
  · exact Or.inl (Except.error.inj h).symm
  refine Or.inr ?_
  split at h
  · exact Or.inl (Except.error.inj h).symm
  · rcases except_bind_eq_error_iff.1 h with horder | ⟨a, -, h⟩
    · rw [Assignments.ofOrder] at horder
      split at horder
      · cases horder
      · cases horder
        exact Or.inr (Or.inl rfl)
    · rcases except_bind_eq_error_iff.1 h with hlength | ⟨n, -, h⟩
      · rw [Assignments.length] at hlength
        split at hlength
        · cases hlength
        · cases hlength
          exact Or.inr (Or.inr (Or.inl rfl))
      · rcases except_bind_eq_error_iff.1 h with htree | ⟨t, -, h⟩
        · exact Or.inr (Or.inr (Or.inr (Tree.exists_eq_error_of_complete htree)))
        · cases h

/-- Whether a diagram spells out a truth table of the formula over an order of names. -/
structure SpellsOut [DepthLimits] (d : Diagram) (f : Formula String) (order : List String)
    (rows : List (Assignment × Bool)) : Prop where
  /-- Every choice of branches is a path to a leaf. -/
  path : ∀ bs : List Bool, bs.length = order.length → ∃ v value,
    d.table.Path d.root order bs v ∧ d.table.entries[v]? = some (.terminal value)
  /-- A path to a leaf tests the names in order, and the leaf has the value under the assignment
      whose number has the branches as its binary digits. -/
  leaf : ∀ xs bs v value, d.table.Path d.root xs bs v →
    d.table.entries[v]? = some (.terminal value) →
    xs = order ∧ bs.length = order.length ∧ ∃ assignments a b,
      Assignments.ofOrder order = .ok assignments ∧
        assignments.get (Assignment.number bs) = .ok a ∧ f.evaluate a.valuation = .ok b ∧
        value = some b
  /-- The leaves from left to right are the rows. -/
  leaves : d.tree.leaves = rows.map fun row => some row.2
  size : d.tree.size = 2 ^ (order.length + 1) - 1
  /-- There are two terminals, false before true. -/
  terminal : ∀ v value, d.table.entries[v]? = some (.terminal value) →
    value.isSome = true ∧ v = terminalPlace value
  /-- The drawing has all tests, and a terminal for each value in the rows. -/
  drawing : ∀ palette, ∃ g, d.draw palette = .ok g ∧
    g.size = 2 ^ order.length - 1 + (rows.map Prod.snd).eraseDups.length

theorem terminal_of_ofTree {tree : Tree} {v : Nat} {value : Option Bool}
    (h : (ofTree tree).table.entries[v]? = some (.terminal value)) :
    value.isSome = true ∧ v = terminalPlace value := by
  have hentry : terminals[v]? = some (.terminal value) := terminal_of_place h
  match v with
  | 0 =>
      cases hentry
      decide
  | 1 =>
      cases hentry
      decide
  | v + 2 => cases hentry

/-- A diagram that is built spells out the truth table. -/
theorem spellsOut_of_build [DepthLimits] (h : (build f choice limits).outcome = .ok d)
    {rows : List (Assignment × Bool)} (hleaves : d.tree.leaves = rows.map fun row => some row.2) :
    d.SpellsOut f (choice.getD f.names) rows := by
  obtain ⟨-, hnodup, hlength, t, ht, rfl⟩ := build_eq_ok_iff.1 h
  obtain ⟨-, htests, hvalues⟩ := tests_of_build h
  obtain ⟨htree, -⟩ := Tree.tests_of_complete ht
  generalize choice.getD f.names = order at *
  refine ⟨?_, ?_, hleaves, ?_, fun v value => terminal_of_ofTree, ?_⟩
  · intro bs hbs
    obtain ⟨v, b, hpath, hv, -⟩ := Table.exists_path_of_tests htests hbs
    exact ⟨v, some b, hpath, hv⟩
  · intro xs bs v value hpath hv
    obtain rfl := hpath.names_of_tests htests hv
    have hbs := hpath.length_eq.symm
    obtain ⟨w, c, hpath', hw, halong⟩ := Table.exists_path_of_tests htests hbs
    obtain ⟨-, rfl⟩ := hpath.unique hpath'
    obtain ⟨b, hb, hvalue⟩ := hvalues bs hbs
    refine ⟨rfl, hbs, ⟨xs, hnodup⟩, xs.zip bs, b, dif_pos hnodup,
      Assignments.get_number (a := ⟨xs, hnodup⟩) hlength hbs, hb, ?_⟩
    rw [hv, Option.some.injEq, Entry.terminal.injEq] at hw
    exact hw.trans (halong.symm.trans hvalue)
  · have hsize := (ofTree t).tree.size_add_one
    rw [htests.length_leaves] at hsize
    rw [Nat.pow_succ]
    omega
  · intro palette
    rw [tree_ofTree htree.proper] at hleaves
    refine exists_draw_ofTree htree ?_ palette
    rw [hleaves, List.map_map]
    rfl

/-- **A decision tree is a truth table.** Where a diagram is built, its truth table is found as well
    and the diagram spells it out: the paths to the leaves test all names in order, the leaf at the
    end of the branches is the row with this number, and the leaves from left to right are all rows.
    The tree has `2 ^ (n + 1) - 1` nodes, but its leaves are two terminals, and so its drawing has
    `2 ^ n - 1` tests and as many terminals as there are values in the table. And whatever may be
    wrong with an input, building neither runs out of assignments nor has any left. -/
theorem build_spellsOut [DepthLimits] (f : Formula String) (choice : Option (List String))
    (limits : Limits) :
    (∀ e, (build f choice limits).outcome = .error e →
      e ≠ .assignmentsExhausted ∧ e ≠ .assignmentsLeft) ∧
    ∀ d, (build f choice limits).outcome = .ok d →
      ∃ rows, f.truthTable choice = .ok rows ∧ d.SpellsOut f (choice.getD f.names) rows := by
  constructor
  · intro e h
    rcases fault_of_build h with rfl | rfl | rfl | rfl | ⟨a, ha⟩
    · rcases Fault.tooManyLiterals_eq_or (choice.getD f.names).length limits.most with he | he <;>
        rw [he] <;> exact ⟨nofun, nofun⟩
    · exact ⟨nofun, nofun⟩
    · exact ⟨nofun, nofun⟩
    · exact ⟨nofun, nofun⟩
    · have hkind := Formula.formula_mem_lineage_of_valueWithin f _ e ha
      constructor <;> rintro rfl <;> revert hkind <;> decide
  · intro d h
    obtain ⟨rows, hrows, hleaves⟩ := exists_truthTable h
    exact ⟨rows, hrows, spellsOut_of_build h hleaves⟩

/-- The truth table of a tautology has one value, and the drawing one terminal below its tests. -/
theorem build_spellsOut_tautology :
    let f := Formula.apply "OR" [.apply "OR" [.literal "A", .apply "NOT" [.literal "A"]],
      .literal "B"]
    ∃ d, (build f none .usual).outcome = .ok d ∧ d.tree.size = 7 ∧
      d.tree.leaves = List.replicate 4 (some true) ∧
      ∃ g, d.draw .usual = .ok g ∧ g.size = 4 := by
  intro f
  have hbuild : (build f none .usual).outcome = .ok _ := rfl
  obtain ⟨rows, hrows, hspells⟩ := (build_spellsOut f none .usual).2 _ hbuild
  have htable : (f.truthTable none).map (List.map Prod.snd) = .ok [true, true, true, true] := by
    decide +kernel
  have hvalues : rows.map Prod.snd = [true, true, true, true] := by
    rw [hrows] at htable
    exact Except.ok.inj htable
  obtain ⟨g, hg, hsize⟩ := hspells.drawing .usual
  refine ⟨_, hbuild, hspells.size, ?_, g, hg, ?_⟩
  · have hleaves : rows.map (fun row => some row.2) = (rows.map Prod.snd).map some :=
      (List.map_map).symm
    rw [hspells.leaves, hleaves, hvalues]
    rfl
  · rw [hsize, hvalues]
    decide

end Diagram

end PropDiagram
