import PropDiagram.Proofs.Formula.Evaluation
import PropDiagram.Proofs.Formula.Grammar

set_option autoImplicit false

/-! # Numbers of operands

The parser gives a connective one operand or two, and one only to negation. So of a formula that was
read nothing can be wrong but that a negation stands between two operands, and then evaluation fails
for this reason, whatever the values of the names (`Formula.Grammatical.exists_value`). -/

namespace PropDiagram

namespace Formula

/-- Whether some negation in the formula has two operands. -/
def hasBinaryNegation : Formula String → Bool :=
  fold (fun _ => false) fun op found =>
    found.any id || (op == Connective.negation.keyword && found.length == 2)

@[simp] theorem hasBinaryNegation_literal (name : String) :
    (literal name).hasBinaryNegation = false := fold_literal ..

@[simp] theorem hasBinaryNegation_apply (op : String) (xs : List (Formula String)) :
    (apply op xs).hasBinaryNegation
      = (xs.any hasBinaryNegation || (op == Connective.negation.keyword && xs.length == 2)) := by
  simp [hasBinaryNegation, fold_apply]

theorem hasBinaryNegation_single (op : String) (x : Formula String) :
    (apply op [x]).hasBinaryNegation = x.hasBinaryNegation := by
  simp

theorem hasBinaryNegation_pair (c : Connective) (x y : Formula String) :
    (apply c.keyword [x, y]).hasBinaryNegation
      = (x.hasBinaryNegation || y.hasBinaryNegation || c == .negation) := by
  have hkeyword : (c.keyword == Connective.negation.keyword) = (c == .negation) := by
    cases c <;> decide
  simp [hkeyword, Bool.or_assoc]

theorem valueWithin_single (leaf : String → Except Fault Bool) (op : String) (x : Formula String)
    (limit : Nat) :
    (apply op [x]).valueWithin leaf (limit + 1)
      = (x.valueWithin leaf limit).bind fun b => Connective.applyNamed op [b] := by
  rw [valueWithin_apply, descend_succ, List.map_singleton, collect_cons]
  cases x.valueWithin leaf limit <;> rfl

theorem valueWithin_pair (leaf : String → Except Fault Bool) (op : String) (x y : Formula String)
    (limit : Nat) :
    (apply op [x, y]).valueWithin leaf (limit + 1)
      = (x.valueWithin leaf limit).bind fun a => (y.valueWithin leaf limit).bind fun b =>
          Connective.applyNamed op [a, b] := by
  rw [valueWithin_apply, descend_succ, List.map_cons, List.map_singleton, collect_cons,
    collect_cons]
  cases x.valueWithin leaf limit with
  | error e => rfl
  | ok a => cases y.valueWithin leaf limit <;> rfl

theorem exists_applyNamed_pair (c : Connective) (a b : Bool) :
    ∃ v, Connective.applyNamed c.keyword [a, b]
      = if c = .negation then .error (.wrongArity .negation) else .ok v := by
  refine ⟨c.truth [a, b], ?_⟩
  rw [Connective.applyNamed, Connective.ofKeyword?_keyword]
  cases c <;> rfl

/-- If all names of a grammatical formula are bound, it has a value exactly if no negation has two
    operands, and else this is the fault. -/
theorem Grammatical.exists_value {f : Formula String} (hf : f.Grammatical) {values : Valuation}
    (hbound : ∀ x ∈ f.leaves, (values x).isSome = true) {limit : Nat} (hdepth : f.depth ≤ limit) :
    ∃ b, f.valueWithin values.lookup limit
      = if f.hasBinaryNegation then .error (.wrongArity .negation) else .ok b := by
  induction hf generalizing limit with
  | @literal name h =>
      obtain ⟨b, hb⟩ := Option.isSome_iff_exists.1 (hbound name (by simp))
      refine ⟨b, ?_⟩
      rw [valueWithin_literal, Valuation.lookup, hb]
      rfl
  | @negation x hx ih =>
      simp only [depth_apply, List.map_cons, List.map_nil, List.foldr_cons, List.foldr_nil]
        at hdepth
      obtain ⟨limit, rfl⟩ := Nat.exists_eq_add_of_lt (show 0 < limit by omega)
      obtain ⟨b, hb⟩ := ih (fun y hy => hbound y (by simpa using hy))
        (show x.depth ≤ limit by omega)
      refine ⟨!b, ?_⟩
      rw [Nat.zero_add, valueWithin_single, hb, hasBinaryNegation_single]
      cases x.hasBinaryNegation <;> rfl
  | @application c x y hx hy ihx ihy =>
      simp only [depth_apply, List.map_cons, List.map_nil, List.foldr_cons, List.foldr_nil]
        at hdepth
      obtain ⟨limit, rfl⟩ := Nat.exists_eq_add_of_lt (show 0 < limit by omega)
      obtain ⟨a, ha⟩ := ihx (fun z hz => hbound z (by simp [hz]))
        (show x.depth ≤ limit by omega)
      obtain ⟨b, hb⟩ := ihy (fun z hz => hbound z (by simp [hz]))
        (show y.depth ≤ limit by omega)
      obtain ⟨v, hv⟩ := exists_applyNamed_pair c a b
      refine ⟨v, ?_⟩
      rw [Nat.zero_add, valueWithin_pair, ha, hb, hasBinaryNegation_pair]
      cases x.hasBinaryNegation with
      | true => rfl
      | false =>
          cases y.hasBinaryNegation with
          | true => rfl
          | false => simpa [Except.bind] using hv

end Formula

end PropDiagram
