set_option autoImplicit false

/-! # Formulas

A formula is a tree: its leaves are literals, its other nodes apply a connective to a list of
operands. The connective is a word of any kind, and the number of operands is free: whether word and
number make sense is a question for evaluation, not for the tree.

`Formula.fold` is the one recursion on formulas; sizes, leaves, printed forms and values are folds.
Each fold has the two equations `fold_literal` and `fold_apply`, and `Formula.induct` is the matching
principle of proof. Only the names are gathered otherwise, from a stack of formulas that are still to
be read. -/

namespace PropDiagram

/-- A formula over literals of type `α`. -/
inductive Formula (α : Type) where
  | literal (name : α)
  /-- The connective of this name, applied to operands. -/
  | apply (op : String) (operands : List (Formula α))
deriving Repr

namespace Formula

variable {α β : Type}

/-! ## Recursion and induction -/

mutual

/-- Computes from the leaves up: `leaf` for a literal, `node` for a connective and the results of
    its operands. -/
def fold (leaf : α → β) (node : String → List β → β) : Formula α → β
  | literal a => leaf a
  | apply op xs => node op (foldAll leaf node xs)

def foldAll (leaf : α → β) (node : String → List β → β) : List (Formula α) → List β
  | [] => []
  | x :: xs => fold leaf node x :: foldAll leaf node xs

end

theorem foldAll_eq_map (leaf : α → β) (node : String → List β → β) (xs : List (Formula α)) :
    foldAll leaf node xs = xs.map (fold leaf node) := by
  induction xs with
  | nil => simp only [foldAll, List.map_nil]
  | cons x xs ih => simp only [foldAll, List.map_cons, ih]

@[simp] theorem fold_literal (leaf : α → β) (node : String → List β → β) (a : α) :
    fold leaf node (literal a) = leaf a := by
  simp only [fold]

@[simp] theorem fold_apply (leaf : α → β) (node : String → List β → β) (op : String)
    (xs : List (Formula α)) :
    fold leaf node (apply op xs) = node op (xs.map (fold leaf node)) := by
  simp only [fold, foldAll_eq_map]

mutual

/-- What holds of literals and passes from operands to their application holds of all formulas. -/
theorem induct {motive : Formula α → Prop} (leaf : ∀ a, motive (literal a))
    (node : ∀ op xs, (∀ x ∈ xs, motive x) → motive (apply op xs)) : ∀ f, motive f
  | literal a => leaf a
  | apply op xs => node op xs (inductAll leaf node xs)

theorem inductAll {motive : Formula α → Prop} (leaf : ∀ a, motive (literal a))
    (node : ∀ op xs, (∀ x ∈ xs, motive x) → motive (apply op xs)) :
    ∀ (fs : List (Formula α)), ∀ f ∈ fs, motive f
  | [], f, h => absurd h (List.not_mem_nil)
  | g :: gs, f, h => by
    rcases List.mem_cons.1 h with h | h
    · exact h ▸ induct leaf node g
    · exact inductAll leaf node gs f h

end

/-! ## Equality -/

mutual

/-- Whether two formulas are the same tree. -/
def decEq [DecidableEq α] : (f g : Formula α) → Decidable (f = g)
  | literal a, literal b =>
    if h : a = b then .isTrue (by rw [h]) else .isFalse (fun e => h (literal.inj e))
  | literal _, apply _ _ => .isFalse nofun
  | apply _ _, literal _ => .isFalse nofun
  | apply o xs, apply p ys =>
    if ho : o = p then
      match decEqAll xs ys with
      | .isTrue h => .isTrue (by rw [ho, h])
      | .isFalse h => .isFalse (fun e => h (apply.inj e).2)
    else .isFalse (fun e => ho (apply.inj e).1)

def decEqAll [DecidableEq α] : (xs ys : List (Formula α)) → Decidable (xs = ys)
  | [], [] => .isTrue rfl
  | [], _ :: _ => .isFalse nofun
  | _ :: _, [] => .isFalse nofun
  | x :: xs, y :: ys =>
    match decEq x y with
    | .isTrue hx =>
      match decEqAll xs ys with
      | .isTrue h => .isTrue (by rw [hx, h])
      | .isFalse h => .isFalse (fun e => h (List.cons.inj e).2)
    | .isFalse hx => .isFalse (fun e => hx (List.cons.inj e).1)

end

instance [DecidableEq α] : DecidableEq (Formula α) := decEq

/-! ## Size and depth -/

/-- The number of nodes, each occurrence of a literal counted. -/
def size : Formula α → Nat := fold (fun _ => 1) (fun _ sizes => sizes.foldr (· + ·) 1)

@[simp] theorem size_literal (a : α) : (literal a).size = 1 := fold_literal ..

@[simp] theorem size_apply (op : String) (xs : List (Formula α)) :
    (apply op xs).size = (xs.map size).foldr (· + ·) 1 := fold_apply ..

/-- The number of nodes of all formulas in a list. -/
def sizeAll (xs : List (Formula α)) : Nat := (xs.map size).foldr (· + ·) 0

@[simp] theorem sizeAll_nil : sizeAll ([] : List (Formula α)) = 0 := rfl

@[simp] theorem sizeAll_cons (x : Formula α) (xs : List (Formula α)) :
    sizeAll (x :: xs) = x.size + sizeAll xs := rfl

@[simp] theorem sizeAll_append (xs ys : List (Formula α)) :
    sizeAll (xs ++ ys) = sizeAll xs + sizeAll ys := by
  induction xs with
  | nil => simp
  | cons x xs ih => simp [ih, Nat.add_assoc]

/-- The nodes of an application are those of its operands and the root. -/
theorem size_apply_eq (op : String) (xs : List (Formula α)) :
    (apply op xs).size = sizeAll xs + 1 := by
  rw [size_apply]
  induction xs with
  | nil => rfl
  | cons x xs ih => rw [List.map_cons, List.foldr_cons, ih, sizeAll_cons, Nat.add_assoc]

/-- How many operands deep the tree goes: none for a literal or an application to nothing. -/
def depth : Formula α → Nat :=
  fold (fun _ => 0) (fun _ depths => (depths.map (· + 1)).foldr max 0)

@[simp] theorem depth_literal (a : α) : (literal a).depth = 0 := fold_literal ..

@[simp] theorem depth_apply (op : String) (xs : List (Formula α)) :
    (apply op xs).depth = ((xs.map depth).map (· + 1)).foldr max 0 := fold_apply ..

/-- The operands of the root; a literal has none. -/
def operands : Formula α → List (Formula α)
  | literal _ => []
  | apply _ xs => xs

/-! ## Literals -/

/-- The names at the leaves, from left to right, as often as they occur. -/
def leaves : Formula α → List α := fold (fun a => [a]) (fun _ parts => parts.flatten)

@[simp] theorem leaves_literal (a : α) : (literal a).leaves = [a] := fold_literal ..

@[simp] theorem leaves_apply (op : String) (xs : List (Formula α)) :
    (apply op xs).leaves = (xs.map leaves).flatten := fold_apply ..

/-- Notes the names of the formulas on a stack after those already noted, each one once. The
    uppermost formula comes first; an application leaves its operands on the stack, the first one
    uppermost. The names of a given formula can be computed in proofs, so this is left reducible. -/
@[semireducible] def gatherNames [DecidableEq α] :
    (stack : List (Formula α)) → (noted : List α) → List α
  | [], noted => noted
  | literal a :: stack, noted =>
    gatherNames stack (if a ∈ noted then noted else noted ++ [a])
  | apply _ xs :: stack, noted => gatherNames (xs ++ stack) noted
termination_by stack => sizeAll stack
decreasing_by
  -- Either way one node is taken off the stack.
  · rw [sizeAll_cons, size_literal]
    omega
  · rw [sizeAll_append, sizeAll_cons, size_apply_eq]
    omega

/-- The names that occur in the formula, in the order of their first occurrence. -/
def names [DecidableEq α] (f : Formula α) : List α := gatherNames [f] []

/-! ## Samples -/

example : (apply "AND" [literal 'b', apply "NOT" [literal 'a'], literal 'b']).names = ['b', 'a'] := by
  decide

end Formula

end PropDiagram
