import PropDiagram.Proofs.Diagram.Canonical
import PropDiagram.Proofs.Diagram.Walk
import PropDiagram.Proofs.Formula.Printer

set_option autoImplicit false

/-! # What the drawing of a text means

The drawing of the decision diagram of a text means what its formula means: the walk through the
drawing that an assignment picks ends at the value of the formula. Reduction does not change where
walks lead, so the drawings with and without it agree (`FromText.diagram_decides`). -/

namespace PropDiagram

namespace FromText

open Multigraph

variable {text : String} {choices : Choices}

section AnyLimits

variable [DepthLimits]

/-! ## Outcomes -/

/-- A text that is not empty is read as by the plain reader. -/
theorem outcome_formula (text : String) :
    (formula text).outcome
      = if tokenize text = [] then .error .emptyInput else (parseText text).outcome := by
  rw [outcome_parseText, formula, Traced.outcome_bind, tokens, Traced.outcome_bind,
    Traced.outcome_report]
  simp only [Except.bind, Traced.outcome_pure]
  by_cases htokens : tokenize text = []
  · rw [htokens]
    rfl
  · rw [if_neg htokens, if_neg (by simpa using htokens)]

theorem parseText_of_formula {f : Formula String} (h : (formula text).outcome = .ok f) :
    (parseText text).outcome = .ok f := by
  rw [outcome_formula] at h
  split at h
  · cases h
  · exact h

theorem outcome_diagram (text : String) (choices : Choices) :
    (diagram text choices).outcome
      = (formula text).outcome.bind fun f =>
          (Diagram.build f choices.order choices.limits).outcome.bind fun d =>
            (diagramDrawing d choices.reduced).outcome := by
  rw [diagram, Traced.outcome_bind]
  congr 1
  funext f
  rw [Traced.outcome_bind]
  congr 1
  funext d
  rw [Traced.outcome_bind]
  cases (diagramDrawing d choices.reduced).outcome <;> rfl

/-- The diagram of a formula can be drawn, reduced or not, and the drawing finds the values of the
    formula. -/
theorem exists_decides {f : Formula String} {order : Option (List String)}
    {limits : Diagram.Limits} {d : Diagram} (h : (Diagram.build f order limits).outcome = .ok d)
    (reduced : Bool) :
    ∃ g, (diagramDrawing d reduced).outcome = .ok g ∧
      (ofDrawing g).Decides (order.getD f.names) f := by
  obtain ⟨-, htests, -⟩ := Diagram.tests_of_build h
  cases reduced with
  | false =>
      obtain ⟨g, hg, hunfolds⟩ := Diagram.exists_unfoldsTo htests .usual
      exact ⟨g, hg, hunfolds.decides htests fun _ => Diagram.evaluate_of_bound h⟩
  | true =>
      obtain ⟨g, hg, hunfolds⟩ := Diagram.exists_unfoldsTo_reduce htests .usual
      refine ⟨g, ?_, hunfolds.decides htests fun _ => Diagram.evaluate_of_bound h⟩
      rw [diagramDrawing, if_pos rfl, Diagram.reduceTraced, Diagram.reduceChecked_eq htests.proper]
      simpa only [Traced.outcome_bind, Traced.outcome_ofExcept, Traced.outcome_report,
        Traced.outcome_pure, Except.bind] using hg

/-! ## Meaning -/

/-- **The drawing of a text means what its formula means.** Where it succeeds, walks through the
    drawing find the values of the formula that the text writes: they test the names of the order one
    by one and end at the value. With reduction and without, the drawing succeeds alike, and for
    every assignment that binds all names of the order its walks lead to the same styles. -/
theorem diagram_decides {g : Drawing} (h : (diagram text choices).outcome = .ok g) :
    ∃ f, (parseText text).outcome = .ok f ∧
      (ofDrawing g).Decides (choices.order.getD f.names) f ∧
      ∀ reduced, ∃ g', (diagram text { choices with reduced := reduced }).outcome = .ok g' ∧
        (ofDrawing g').Decides (choices.order.getD f.names) f ∧
        ∀ values : Valuation, (∀ x ∈ choices.order.getD f.names, (values x).isSome = true) →
          ∀ style, (ofDrawing g').LeadsTo values style ↔ (ofDrawing g).LeadsTo values style := by
  rw [outcome_diagram, except_bind_eq_ok_iff] at h
  obtain ⟨f, hf, h⟩ := h
  rw [except_bind_eq_ok_iff] at h
  obtain ⟨d, hd, hg⟩ := h
  obtain ⟨_, hg', hdecides⟩ := exists_decides hd choices.reduced
  rw [hg, Except.ok.injEq] at hg'
  subst hg'
  refine ⟨f, parseText_of_formula hf, hdecides, ?_⟩
  intro reduced
  obtain ⟨g', hg', hdecides'⟩ := exists_decides hd reduced
  refine ⟨g', ?_, hdecides', ?_⟩
  · rw [outcome_diagram, hf]
    dsimp only [Except.bind]
    rw [hd]
    exact hg'
  · intro values hbound style
    obtain ⟨b, hb, -⟩ := Diagram.evaluate_of_bound hd hbound
    rw [hdecides'.leadsTo_iff hbound hb, hdecides.leadsTo_iff hbound hb]

end AnyLimits

/-- Over `B` before `A`, both branches of the test of `B` lead to the test of `A`, and they are drawn
    as one edge. -/
theorem diagram_decides_ignored :
    let text := "((A AND B) OR (A AND (NOT B)))"
    let choices : Choices := ⟨true, some ["B", "A"], .usual⟩
    let values := Assignment.valuation [("A", true), ("B", false)]
    ∃ g, (diagram text choices).outcome = .ok g ∧
      (ofDrawing g).leaving 3 = [⟨3, 2, some "F/T"⟩] ∧
      (ofDrawing g).LeadsTo values ⟨some "True", some "green"⟩ := by
  intro text choices values
  have hleaving : ((diagram text choices).outcome.map fun g => (ofDrawing g).leaving 3)
      = .ok [⟨3, 2, some "F/T"⟩] := by
    decide +kernel
  have hread : (parseText text).outcome = .ok (.apply "OR"
      [.apply "AND" [.literal "A", .literal "B"],
        .apply "AND" [.literal "A", .apply "NOT" [.literal "B"]]]) := by
    rw [outcome_parseText]
    decide +kernel
  cases h : (diagram text choices).outcome with
  | error e =>
      rw [h] at hleaving
      cases hleaving
  | ok g =>
      rw [h, Except.map, Except.ok.injEq] at hleaving
      refine ⟨g, rfl, hleaving, ?_⟩
      obtain ⟨f, hf, hdecides, -⟩ := diagram_decides h
      rw [hread, Except.ok.injEq] at hf
      subst hf
      exact (hdecides.leadsTo_iff (by decide) rfl _).2 rfl

end FromText

end PropDiagram
