import PropDiagram.FromText
import PropDiagram.Proofs.Formula.FirstFault

set_option autoImplicit false

/-! # Writing a formula for the record

Writing succeeds exactly if the stack suffices for the deepest operand (`Formula.textWithin_eq`). So
a formula that was read is given out exactly if it can be written, and otherwise there is a fault that
is not one of reading (`FromText.outcome_parseTokens`). No level costs more than four calls, so a stack
with room for four times as many calls as levels always suffices (`Formula.printingDepth_le`). -/

namespace PropDiagram

namespace Formula

variable {α β γ : Type}

theorem printingDepth_apply_le_iff {op : String} {xs : List (Formula α)} {calls : Nat} :
    (apply op xs).printingDepth ≤ calls
      ↔ ∀ x ∈ xs, x.printingDepth + printingCost xs.length ≤ calls := by
  rw [printingDepth_apply, List.map_map, foldr_max_le_iff]
  rfl

theorem collect_map_ite {p : γ → Prop} [DecidablePred p] (f : γ → β) (e : Fault) (xs : List γ) :
    collect (xs.map fun x => if p x then .ok (f x) else .error e)
      = if ∀ x ∈ xs, p x then .ok (xs.map f) else .error e := by
  induction xs with
  | nil => rfl
  | cons x xs ih =>
      rw [List.map_cons, collect_cons, ih]
      by_cases hx : p x
      · by_cases hxs : ∀ y ∈ xs, p y
        · rw [if_pos hx, if_pos hxs, if_pos (List.forall_mem_cons.2 ⟨hx, hxs⟩)]
          rfl
        · rw [if_pos hx, if_neg hxs, if_neg fun h => hxs (List.forall_mem_cons.1 h).2]
          rfl
      · rw [if_neg hx, if_neg fun h => hx (List.forall_mem_cons.1 h).1]
        rfl

/-- The stack suffices for writing exactly if it does for the deepest operand. -/
theorem textWithin_eq (f : Formula String) : ∀ calls,
    f.textWithin calls = if f.printingDepth ≤ calls then .ok f.text else .error .recordTooDeep := by
  induction f using Formula.induct with
  | leaf name =>
      intro calls
      rw [textWithin_literal, printingDepth_literal, if_pos (Nat.zero_le _), text_literal]
  | node op xs ih =>
      intro calls
      have hoperand : ∀ x ∈ xs, (if calls < printingCost xs.length then .error .recordTooDeep
          else x.textWithin (calls - printingCost xs.length))
          = if x.printingDepth + printingCost xs.length ≤ calls then .ok x.text
            else .error .recordTooDeep := by
        intro x hx
        rw [ih x hx]
        by_cases hcost : calls < printingCost xs.length
        · rw [if_pos hcost, if_neg (by omega)]
        · simp only [if_neg hcost, Nat.le_sub_iff_add_le (Nat.not_lt.1 hcost)]
      rw [textWithin_apply, List.map_congr_left hoperand, collect_map_ite]
      simp only [printingDepth_apply_le_iff]
      split
      · rw [text_apply]
        rfl
      · rfl

/-- A level costs at most four calls. -/
theorem printingDepth_le (f : Formula α) : f.printingDepth ≤ 4 * f.depth := by
  induction f using Formula.induct with
  | leaf a => rw [printingDepth_literal]; exact Nat.zero_le _
  | node op xs ih =>
      rw [printingDepth_apply_le_iff]
      intro x hx
      have hdepth := depth_apply_le_iff.1 (Nat.le_refl (apply op xs).depth) x hx
      have hcost : printingCost xs.length ≤ 4 := by
        rw [printingCost]
        split <;> omega
      have := ih x hx
      omega

end Formula

namespace FromText

variable [DepthLimits] {ts : List Token}

/-- Tokens are read, and what was read is given out if it can be written. -/
theorem outcome_parseTokens (ts : List Token) :
    (parseTokens ts).outcome = (parse ts).bind fun f =>
      if f.printingDepth ≤ printingLimit then .ok f else .error .recordTooDeep := by
  simp only [parseTokens, Traced.outcome_bind, Traced.outcome_ofExcept, Traced.outcome_report,
    Traced.outcome_pure, Formula.textWithin_eq]
  congr 1
  funext f
  split <;> rfl

theorem parseTokens_eq_ok_iff {f : Formula String} :
    (parseTokens ts).outcome = .ok f ↔ parse ts = .ok f ∧ f.printingDepth ≤ printingLimit := by
  rw [outcome_parseTokens]
  cases parse ts with
  | error e => simp [Except.bind]
  | ok g =>
      simp only [Except.bind, Except.ok.injEq]
      constructor
      · intro h
        split at h
        · next hdepth =>
            cases h
            exact ⟨rfl, hdepth⟩
        · cases h
      · rintro ⟨rfl, hdepth⟩
        rw [if_pos hdepth]

theorem parseTokens_eq_error_iff {e : Fault} :
    (parseTokens ts).outcome = .error e ↔ parse ts = .error e ∨
      e = .recordTooDeep ∧ ∃ f, parse ts = .ok f ∧ printingLimit < f.printingDepth := by
  rw [outcome_parseTokens]
  cases parse ts with
  | error e' => simp [Except.bind]
  | ok g =>
      simp only [Except.bind, Except.ok.injEq, reduceCtorEq, false_or, exists_eq_left']
      split
      · next hdepth => simp [hdepth]
      · next hdepth => simp [Nat.not_le.1 hdepth, eq_comm]

end FromText

end PropDiagram
