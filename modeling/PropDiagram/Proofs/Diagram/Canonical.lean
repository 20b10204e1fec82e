import PropDiagram.Proofs.Assignment
import PropDiagram.Proofs.Diagram.DecisionTree

set_option autoImplicit false

/-! # Reduced diagrams of formulas

Reducing the diagram of a formula, without elimination, keeps its meaning, faults included, and is
canonical: over one order of names, formulas have equal reduced diagrams exactly if they have the
same value under every assignment. -/

namespace PropDiagram

namespace Diagram

open Powers

variable {d : Diagram} {f : Formula String} {order : Option (List String)} {limits : Limits}

/-! ## Meaning -/

theorem evaluate_reduce_build [DepthLimits] (h : (build f order limits).outcome = .ok d)
    (values : Valuation) :
    (d.reduce false).evaluate values
      = match (order.getD f.names).find? fun x => (values x).isNone with
        | some x => .error (.unbound (some x))
        | none => .ok (d.tree.along (values.branches (order.getD f.names))) := by
  obtain ⟨-, htests, -⟩ := tests_of_build h
  rw [evaluate_reduce htests.proper, restored_of_tests htests]
  exact htests.follow_eq values

/-- If all names of the order are bound, the formula has the value at the branches that they
    spell out. -/
theorem evaluate_of_bound [DepthLimits] (h : (build f order limits).outcome = .ok d)
    {values : Valuation} (hbound : ∀ x ∈ order.getD f.names, (values x).isSome = true) :
    ∃ b, f.evaluate values = .ok b ∧
      d.tree.along (values.branches (order.getD f.names)) = some b := by
  obtain ⟨-, -, hvalues⟩ := tests_of_build h
  obtain ⟨b, hb, halong⟩ := hvalues (values.branches (order.getD f.names)) (by simp)
  exact ⟨b, Formula.evaluate_of_extends (Assignment.extends_branches hbound) hb, halong⟩

theorem needs_leaves_of_build [DepthLimits] (h : (build f order limits).outcome = .ok d)
    (values : Valuation) :
    values.Needs f.leaves (f.evaluate values) := by
  obtain ⟨-, -, hvalues⟩ := tests_of_build h
  obtain ⟨b, hb, -⟩ := hvalues (values.branches (order.getD f.names)) (by simp)
  exact Formula.needs_leaves hb values

/-- The reduced diagram cannot be told from the formula. If the names of the order are bound, both
    have the same value; else the diagram misses the first name of the order that is not bound. Over
    the formula's own names both agree in any case: on the value, or on the name that is missing. -/
theorem reduce_build_evaluates [DepthLimits] (h : (build f order limits).outcome = .ok d)
    (values : Valuation) :
    ((∀ x ∈ order.getD f.names, (values x).isSome = true) →
      ∃ b, f.evaluate values = .ok b ∧ (d.reduce false).evaluate values = .ok (some b)) ∧
    (∀ x, (order.getD f.names).find? (fun x => (values x).isNone) = some x →
      (d.reduce false).evaluate values = .error (.unbound (some x))) ∧
    (order.getD f.names = f.names →
      (d.reduce false).evaluate values = (f.evaluate values).map some) := by
  have hreduce := evaluate_reduce_build h values
  have hbound : (∀ x ∈ order.getD f.names, (values x).isSome = true) →
      ∃ b, f.evaluate values = .ok b ∧ (d.reduce false).evaluate values = .ok (some b) := by
    intro hall
    obtain ⟨b, hb, halong⟩ := evaluate_of_bound h hall
    have hnone : (order.getD f.names).find? (fun x => (values x).isNone) = none := by
      rw [List.find?_eq_none]
      intro x hx
      simp [Option.isSome_iff_ne_none.1 (hall x hx)]
    rw [hnone] at hreduce
    exact ⟨b, hb, by rw [hreduce, halong]⟩
  refine ⟨hbound, ?_, ?_⟩
  · intro x hx
    rw [hreduce, hx]
  · intro hnames
    have hneeds := needs_leaves_of_build h values
    rw [Valuation.Needs, ← find?_eraseDups, ← Formula.names_eq, ← hnames] at hneeds
    cases hfind : (order.getD f.names).find? fun x => (values x).isNone with
    | some x =>
        rw [hfind] at hneeds
        rw [hreduce, hfind, hneeds]
        rfl
    | none =>
        have hall : ∀ x ∈ order.getD f.names, (values x).isSome = true := by
          intro x hx
          simpa [Option.isSome_iff_ne_none] using List.find?_eq_none.1 hfind x hx
        obtain ⟨b, hb, heval⟩ := hbound hall
        rw [heval, hb]
        rfl

theorem reduce_build_misses_second :
    ∃ d, (build (.apply "AND" [.literal "x", .literal "y"]) none .usual).outcome = .ok d ∧
      (d.reduce false).evaluate (fun name => if name = "x" then some false else none)
        = .error (.unbound (some "y")) := by
  have hbuild : (build (.apply "AND" [.literal "x", .literal "y"]) none .usual).outcome
      = .ok _ := rfl
  exact ⟨_, hbuild, (reduce_build_evaluates hbuild _).2.1 "y" rfl⟩

/-! ## Canonicity -/

/-- Formulas have equal reduced diagrams over one order exactly if no assignment to the names tells
    them apart. -/
theorem reduce_build_eq_iff [DepthLimits] {f g : Formula String} {order : List String}
    {limits limits' : Limits} {d d' : Diagram} (hf : (build f (some order) limits).outcome = .ok d)
    (hg : (build g (some order) limits').outcome = .ok d') :
    d.reduce false = d'.reduce false ↔
      ∀ i, i < 2 ^ order.length →
        f.evaluate (Assignment.numbered order i).valuation
          = g.evaluate (Assignment.numbered order i).valuation := by
  obtain ⟨-, htests, hvalues⟩ := tests_of_build hf
  obtain ⟨-, htests', hvalues'⟩ := tests_of_build hg
  rw [Option.getD_some] at htests hvalues htests' hvalues'
  constructor
  · intro heq i _
    obtain ⟨bs, hbs, hnumbered⟩ := Assignment.exists_zip_eq_numbered order i
    obtain ⟨b, hb, halong⟩ := hvalues bs hbs
    obtain ⟨c, hc, halong'⟩ := hvalues' bs hbs
    rw [tree_eq_of_reduce_eq htests htests' heq, halong'] at halong
    rw [hnumbered, hb, hc, Option.some.inj halong]
  · intro heq
    have htree : d.tree = d'.tree := by
      refine htests.ext htests' ?_
      intro bs hbs
      obtain ⟨i, hi, hnumbered⟩ := Assignment.exists_numbered_eq_zip hbs
      obtain ⟨b, hb, halong⟩ := hvalues bs hbs
      obtain ⟨c, hc, halong'⟩ := hvalues' bs hbs
      have hvalue := heq i hi
      rw [hnumbered, hb, hc] at hvalue
      rw [halong, halong', Except.ok.inj hvalue]
    exact reduce_congr htests'.proper htree false

theorem reduce_build_double_negation :
    ∃ d d',
      (build (.apply "NOT" [.apply "NOT" [.literal "x"]]) (some ["x"]) .usual).outcome = .ok d ∧
      (build (.literal "x") (some ["x"]) .usual).outcome = .ok d' ∧
      d.reduce false = d'.reduce false := by
  have hnot : (build (.apply "NOT" [.apply "NOT" [.literal "x"]]) (some ["x"]) .usual).outcome
      = .ok _ := rfl
  have hliteral : (build (.literal "x") (some ["x"]) .usual).outcome = .ok _ := rfl
  refine ⟨_, _, hnot, hliteral, (reduce_build_eq_iff hnot hliteral).2 ?_⟩
  intro i hi
  have hcases : i = 0 ∨ i = 1 := by
    change i < 2 at hi
    omega
  rcases hcases with rfl | rfl <;> rfl

end Diagram

end PropDiagram
