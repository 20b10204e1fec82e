import PropDiagram.Formula.Parser

set_option autoImplicit false

/-! # Evaluating formulas

The value of a formula is found from the leaves up. All operands are evaluated first, from left to
right, and only then is the connective looked at: so of several faults the one that comes first in
post-order is the outcome, and no operand is ever skipped.

`valueWithin` descends at most `limit` operands deep; a deeper operand is a fault when it is
reached, after everything to its left. `value` has no limit. -/

namespace PropDiagram

/-- The truth values that are known, by name. -/
abbrev Valuation : Type := String → Option Bool

/-- Applies the connective of this name to truth values. -/
def Connective.applyNamed (op : String) (xs : List Bool) : Except Fault Bool :=
  match ofKeyword? op with
  | none => .error (.unknownConnective op)
  | some c => if c.accepts xs.length then .ok (c.truth xs) else .error (.wrongArity c)

def Valuation.lookup (values : Valuation) (name : String) : Except Fault Bool :=
  match values name with
  | some b => .ok b
  | none => .error (.unbound (some name))

namespace Formula

variable {α : Type}

/-! ## Without a limit -/

/-- The results in order, or the first fault among them. -/
def collect {ε β : Type} : List (Except ε β) → Except ε (List β)
  | [] => .ok []
  | r :: rs => do
    let b ← r
    let bs ← collect rs
    pure (b :: bs)

/-- The value of the formula, where `leaf` gives the values of the literals. -/
def value (leaf : α → Except Fault Bool) : Formula α → Except Fault Bool :=
  fold leaf fun op results => (collect results).bind (Connective.applyNamed op)

@[simp] theorem value_literal (leaf : α → Except Fault Bool) (a : α) :
    (literal a).value leaf = leaf a := fold_literal ..

@[simp] theorem value_apply (leaf : α → Except Fault Bool) (op : String) (xs : List (Formula α)) :
    (apply op xs).value leaf
      = (collect (xs.map (value leaf))).bind (Connective.applyNamed op) := fold_apply ..

/-! ## With a limit -/

/-- What operands give that may descend `limit` levels, one level of which they use themselves. -/
def descend {β : Type} (limit : Nat) (operands : List (Nat → Except Fault β)) :
    Except Fault (List β) :=
  match limit with
  | 0 => if operands.isEmpty then .ok [] else .error .nestedTooDeeply
  | limit + 1 => collect (operands.map fun operand => operand limit)

/-- The value of the formula, if no operand more than `limit` deep is reached. -/
def valueWithin (leaf : α → Except Fault Bool) : Formula α → (limit : Nat) → Except Fault Bool :=
  fold (fun a _ => leaf a)
    fun op operands limit => (descend limit operands).bind (Connective.applyNamed op)

@[simp] theorem valueWithin_literal (leaf : α → Except Fault Bool) (a : α) (limit : Nat) :
    (literal a).valueWithin leaf limit = leaf a := by
  simp only [valueWithin, fold_literal]

@[simp] theorem valueWithin_apply (leaf : α → Except Fault Bool) (op : String)
    (xs : List (Formula α)) (limit : Nat) :
    (apply op xs).valueWithin leaf limit
      = (descend limit (xs.map (valueWithin leaf))).bind (Connective.applyNamed op) := by
  simp only [valueWithin, fold_apply]

/-- The truth value of the formula when the literals have these values. -/
def evaluate [DepthLimits] (values : Valuation) (f : Formula String) : Except Fault Bool :=
  f.valueWithin values.lookup nestingLimit

end Formula

/-! ## Foreign leaves -/

/-- A leaf that may be something else than a literal. -/
inductive Leaf where
  | name (value : String)
  | foreign (value : String)
deriving DecidableEq, Repr

def Valuation.lookupLeaf (values : Valuation) : Leaf → Except Fault Bool
  | .name s => values.lookup s
  | .foreign _ => .error .foreignLeaf

/-- The truth value of a formula that may have foreign leaves. -/
def Formula.evaluateMixed [DepthLimits] (values : Valuation) (f : Formula Leaf) :
    Except Fault Bool :=
  f.valueWithin values.lookupLeaf nestingLimit

end PropDiagram
