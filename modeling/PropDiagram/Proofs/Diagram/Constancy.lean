import PropDiagram.Proofs.Diagram.TruthTable
import PropDiagram.Proofs.Diagram.WellFormed

set_option autoImplicit false

/-! # Constant formulas

A reduced diagram may ask for the wrong literal, but whether its formula is constant can be read off
it (`Diagram.reduce_build_constant`). Reduction neither loses nor invents a truth value: the terminals
of a shape are the values of the leaves, whatever is merged or eliminated
(`Tree.terminal_mem_postorder_shape_iff`). And elimination makes a tree collapse to a terminal exactly
if all its leaves have the same value (`Tree.shape_true_eq_terminal_iff`).

The leaves of a decision tree in turn have the values of the formula under all assignments
(`Diagram.isConstant_iff`). -/

namespace PropDiagram

open Powers

/-- Whether the formula has this value under all assignments to the names. -/
def Formula.IsConstant [DepthLimits] (f : Formula String) (order : List String) (b : Bool) : Prop :=
  ∀ i, i < 2 ^ order.length → f.evaluate (Assignment.numbered order i).valuation = .ok b

/-! ## Leaves and shapes -/

namespace Tree

theorem Proper.not_mem_leaves_iff {t : Tree} (h : t.Proper) (b : Bool) :
    some b ∉ t.leaves ↔ ∀ v ∈ t.leaves, v = some (!b) := by
  induction t with
  | leaf value =>
      obtain ⟨c, rfl⟩ := Option.isSome_iff_exists.1 h
      cases b <;> cases c <;> decide
  | node name low high ihl ihh =>
      rw [leaves, List.mem_append, not_or, List.forall_mem_append, ihl h.2.1, ihh h.2.2]

theorem terminal_mem_postorder_shape_iff (e : Bool) (t : Tree) (v : Option Bool) :
    .terminal v ∈ (t.shape e).postorder ↔ v ∈ t.leaves := by
  induction t with
  | leaf value => simp [Shape.postorder, leaves]
  | node name low high ihl ihh =>
      rw [leaves, List.mem_append, ← ihl, ← ihh]
      cases hkept : (node name low high).isKept e with
      | true => simp [shape_of_isKept hkept, Shape.postorder]
      | false =>
          -- The branches have one shape, so they have the same values.
          have hsame : low.shape e = high.shape e := by
            simp only [isKept, Bool.not_eq_false', Bool.and_eq_true, beq_iff_eq] at hkept
            exact hkept.2
          rw [shape_of_not_isKept hkept, ← hsame, or_self]

/-- With elimination, a tree collapses to a terminal exactly if all its leaves have this value. -/
theorem shape_true_eq_terminal_iff (t : Tree) (v : Option Bool) :
    t.shape true = .terminal v ↔ ∀ x ∈ t.leaves, x = v := by
  induction t with
  | leaf value => simp [leaves]
  | node name low high ihl ihh =>
      rw [leaves, List.forall_mem_append, ← ihl, ← ihh, shape, Bool.true_and]
      by_cases hsame : low.shape true = high.shape true
      · rw [if_pos (beq_iff_eq.2 hsame), ← hsame, and_self]
      · rw [if_neg (mt beq_iff_eq.1 hsame)]
        refine iff_of_false (by simp) fun hboth => hsame ?_
        rw [hboth.1, hboth.2]

end Tree

/-! ## The root -/

/-- The root of a reduced diagram is a terminal exactly if it is the only node. -/
theorem Reduced.WellFormed.isTerminal_root_iff {e : Bool} {r : Reduced} (h : r.WellFormed e) :
    r.isTerminal r.root = true ↔ r.size = 1 := by
  obtain ⟨u, hroot, hsize, hreaches⟩ := h.root
  have hu : u < r.size := by omega
  have hentry : r.entry? r.root = some (r.table.get ⟨u, hu⟩) := by
    rw [ entry?, hroot, place?, Option.bind_some, dif_pos ⟨by omega, by omega⟩]
    rfl
  have hget : r.table.entries[u]? = some (r.table.get ⟨u, hu⟩) := Array.getElem?_eq_getElem hu
  rw [isTerminal, hentry, Option.any_some]
  cases hnode : r.table.get ⟨u, hu⟩ with
  | terminal value =>
      -- A terminal reaches nothing but itself, and the root reaches all.
      rw [hnode] at hget
      have hzero := Table.mem_occurrences_iff.2 (hreaches 0 (by omega))
      rw [Table.occurrences_of_not_test (Table.test?_eq_none_of_terminal hget),
        List.mem_singleton] at hzero
      exact iff_of_true rfl (by omega)
  | test name low high =>
      rw [hnode] at hget
      have hlow := (h.successors u name low high hget).1
      exact iff_of_false Bool.false_ne_true (by omega)

namespace Diagram

variable {d : Diagram}

theorem root_entry_reduce (h : d.tree.Proper) (e : Bool) :
    Reduced.entry? (d.reduce e) (d.reduce e).root
      = some (Tree.entry e d.tree.postorder (d.tree.shape e)) := by
  obtain ⟨p, hplace, hp⟩ := place?_reduce h e
  have hentry := getElem?_reduce h (shape_mem_shapes_tree d e)
  rw [← hp] at hentry
  rw [ Reduced.entry?, hplace, ← hentry]
  exact (Array.getElem?_eq_getElem p.isLt).symm

theorem terminal?_reduce_eq_none_iff (h : d.tree.Proper) (e b : Bool) :
    (d.reduce e).terminal? b = none ↔ some b ∉ d.tree.leaves := by
  rw [Reduced.terminal?, Array.findIdx?_eq_none_iff]
  simp only [← Array.mem_toList_iff]
  rw [entries_reduce h e, ← Tree.terminal_mem_postorder_shape_iff e, ← mem_shapes_postorder,
    Tree.entries, List.forall_mem_map]
  constructor
  · intro hnone hmem
    simpa [Tree.entry] using hnone _ hmem
  · intro hnot s hs
    cases s with
    | terminal v =>
        simp only [Tree.entry, Entry.terminal.injEq, decide_eq_false_iff_not]
        rintro rfl
        exact hnot hs
    | test p q => rfl

theorem isTerminal_root_reduce_iff (h : d.tree.Proper) (e : Bool) :
    (d.reduce e).isTerminal (d.reduce e).root = true ↔
      ∃ b, d.tree.shape e = .terminal (some b) := by
  have hrestored := proper_restored_tree h e
  rw [Reduced.isTerminal, root_entry_reduce h e, Option.any_some]
  cases hshape : d.tree.shape e with
  | terminal v =>
      rw [hshape] at hrestored
      obtain ⟨b, rfl⟩ := Option.isSome_iff_exists.1 hrestored
      exact iff_of_true rfl ⟨b, rfl⟩
  | test p q => exact iff_of_false Bool.false_ne_true (by simp)

theorem value_root_reduce_eq_ok_iff (h : d.tree.Proper) (e b : Bool) :
    (d.reduce e).value (d.reduce e).root = .ok (some b) ↔ d.tree.shape e = .terminal (some b) := by
  rw [Reduced.value, root_entry_reduce h e]
  cases d.tree.shape e with
  | terminal v => simp [Tree.entry]
  | test p q => simp [Tree.entry]

/-! ## The formula -/

variable {f : Formula String} {choice : Option (List String)} {limits : Limits}

/-- A formula is constant exactly if its decision tree has this value at all leaves. -/
theorem isConstant_iff [DepthLimits] (h : (build f choice limits).outcome = .ok d) (b : Bool) :
    f.IsConstant (choice.getD f.names) b ↔ ∀ v ∈ d.tree.leaves, v = some b := by
  obtain ⟨-, htests, hvalues⟩ := tests_of_build h
  rw [htests.leaves_eq, List.forall_mem_map, Formula.IsConstant]
  refine forall_congr' fun i => ?_
  obtain ⟨c, hc, halong⟩ := hvalues _ (Assignment.length_branches _ i)
  rw [Assignment.zip_branches] at hc
  rw [List.mem_range, hc, halong, Except.ok.injEq, Option.some.injEq]

/-- **Whether a formula is constant is read off its reduced diagram.** For every formula and order of
    names for which the diagram is built, with or without elimination: there is no terminal for false
    exactly if the formula is true under all assignments to the names, and none for true exactly if it
    is false under all of them. With elimination, the root is a terminal exactly if it is the only
    node, and exactly if the formula is constant; it then has the value of the formula. -/
theorem reduce_build_constant [DepthLimits] (h : (build f choice limits).outcome = .ok d) :
    (∀ e,
      ((d.reduce e).terminal? false = none ↔ f.IsConstant (choice.getD f.names) true) ∧
      ((d.reduce e).terminal? true = none ↔ f.IsConstant (choice.getD f.names) false)) ∧
    ((d.reduce true).isTerminal (d.reduce true).root = true ↔ (d.reduce true).size = 1) ∧
    ((d.reduce true).isTerminal (d.reduce true).root = true ↔
      ∃ b, f.IsConstant (choice.getD f.names) b) ∧
    ∀ b, (d.reduce true).value (d.reduce true).root = .ok (some b) ↔
      f.IsConstant (choice.getD f.names) b := by
  obtain ⟨-, htests, -⟩ := tests_of_build h
  have hproper := htests.proper
  have hconstant : ∀ b, f.IsConstant (choice.getD f.names) b ↔
      d.tree.shape true = .terminal (some b) := fun b =>
    (isConstant_iff h b).trans (Tree.shape_true_eq_terminal_iff _ _).symm
  refine ⟨fun e => ⟨?_, ?_⟩, (wellFormed_reduce hproper true).isTerminal_root_iff, ?_, fun b => ?_⟩
  · rw [terminal?_reduce_eq_none_iff hproper, hproper.not_mem_leaves_iff, isConstant_iff h]
    rfl
  · rw [terminal?_reduce_eq_none_iff hproper, hproper.not_mem_leaves_iff, isConstant_iff h]
    rfl
  · rw [isTerminal_root_reduce_iff hproper]
    exact exists_congr fun b => (hconstant b).symm
  · rw [value_root_reduce_eq_ok_iff hproper, hconstant]

/-- A tautology in two names, one of which it does not have: without elimination there are tests of
    both left, but no terminal for false. -/
theorem reduce_build_constant_excludedMiddle :
    let f := Formula.apply "OR" [.literal "A", .apply "NOT" [.literal "A"]]
    ∃ d, (build f (some ["B", "A"]) .usual).outcome = .ok d ∧ f.IsConstant ["B", "A"] true ∧
      (d.reduce false).size = 3 ∧ (d.reduce false).terminal? false = none ∧
      (d.reduce true).size = 1 ∧ (d.reduce true).value (d.reduce true).root = .ok (some true) := by
  intro f
  have hbuild : (build f (some ["B", "A"]) .usual).outcome = .ok _ := rfl
  obtain ⟨hterminals, hsize, hroot, hvalue⟩ := reduce_build_constant hbuild
  have hconstant : f.IsConstant ["B", "A"] true := by
    unfold Formula.IsConstant
    decide +kernel
  refine ⟨_, hbuild, hconstant, by decide +kernel, (hterminals false).1.2 hconstant,
    hsize.1 (hroot.2 ⟨true, hconstant⟩), (hvalue true).2 hconstant⟩

end Diagram

end PropDiagram
