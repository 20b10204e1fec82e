import PropDiagram.Formula.Evaluation
import PropDiagram.Formula.Printer

set_option autoImplicit false

/-! # Formulas in records

When a formula was read, its text is written for a record. Writing descends as reading does, but it
needs more of the stack: three calls for a negation and four for any other application, where
reading needs two. So it may fail although reading succeeded, and this fault is not the one of
formulas that nest too deeply. -/

namespace PropDiagram.Formula

variable {α : Type}

/-- The calls from an application to an operand: one operand is formatted in place, several are
    mapped over and joined. -/
def printingCost (operands : Nat) : Nat := if operands = 1 then 3 else 4

/-- The calls that are open at once, at most, while the formula is written. -/
def printingDepth : Formula α → Nat :=
  fold (fun _ => 0)
    fun _ depths => (depths.map (· + printingCost depths.length)).foldr max 0

@[simp] theorem printingDepth_literal (a : α) : (literal a).printingDepth = 0 := fold_literal ..

@[simp] theorem printingDepth_apply (op : String) (xs : List (Formula α)) :
    (apply op xs).printingDepth
      = ((xs.map printingDepth).map (· + printingCost xs.length)).foldr max 0 := by
  simp only [printingDepth, fold_apply, List.length_map]

/-- The formula as `text`, written with so many calls to spare. -/
def textWithin : Formula String → (calls : Nat) → Except Fault String :=
  fold (fun name _ => .ok name) fun op operands calls => do
    let cost := printingCost operands.length
    let texts ← collect (operands.map fun operand =>
      if calls < cost then .error .recordTooDeep else operand (calls - cost))
    pure (applicationText op texts)

@[simp] theorem textWithin_literal (name : String) (calls : Nat) :
    (literal name).textWithin calls = .ok name := by
  simp only [textWithin, fold_literal]

theorem textWithin_apply (op : String) (xs : List (Formula String)) (calls : Nat) :
    (apply op xs).textWithin calls
      = (collect (xs.map fun x =>
          if calls < printingCost xs.length then .error .recordTooDeep
          else x.textWithin (calls - printingCost xs.length))).map (applicationText op) := by
  simp only [textWithin, fold_apply, List.map_map, List.length_map, Function.comp_def]
  rfl

end PropDiagram.Formula
