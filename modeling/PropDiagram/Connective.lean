set_option autoImplicit false

/-! # Connectives

The five propositional connectives: how each is written, how many operands it takes, and what it
does to truth values. Conjunction and disjunction take two or more operands, implication and
equivalence exactly two, negation exactly one. -/

namespace PropDiagram

/-- The connectives of propositional logic that formulas are written with. -/
inductive Connective where
  | negation
  | conjunction
  | disjunction
  | implication
  | equivalence
deriving DecidableEq, Repr

namespace Connective

/-! ## Keywords -/

def keyword : Connective → String
  | negation => "NOT"
  | conjunction => "AND"
  | disjunction => "OR"
  | implication => "IMP"
  | equivalence => "IFF"

def all : List Connective := [negation, conjunction, disjunction, implication, equivalence]

/-- The connective written by this word, if it is a keyword. Case matters. -/
def ofKeyword? (word : String) : Option Connective := all.find? fun c => c.keyword == word

theorem mem_all (c : Connective) : c ∈ all := by cases c <;> decide

@[simp] theorem ofKeyword?_keyword (c : Connective) : ofKeyword? c.keyword = some c := by
  cases c <;> decide

theorem ofKeyword?_eq_some_iff {word : String} {c : Connective} :
    ofKeyword? word = some c ↔ word = c.keyword := by
  constructor
  · intro h
    have := List.find?_some h
    exact (eq_of_beq this).symm
  · rintro rfl
    exact ofKeyword?_keyword c

/-! ## Operands -/

/-- Whether the connective can be applied to this many operands. -/
def accepts : Connective → Nat → Bool
  | negation, n => n == 1
  | conjunction, n | disjunction, n => 2 ≤ n
  | implication, n | equivalence, n => n == 2

/-- How many operands the connective takes, in words. -/
def arityText : Connective → String
  | negation => "exactly one argument"
  | conjunction | disjunction => "at least two arguments"
  | implication | equivalence => "exactly two arguments"

/-- The truth value of the connective applied to these operands. It has a meaning only for a number
    of operands that the connective accepts. -/
def truth : Connective → List Bool → Bool
  | negation, xs => !xs.headD false
  | conjunction, xs => xs.all id
  | disjunction, xs => xs.any id
  | implication, xs => !xs.headD false || xs.getLastD false
  | equivalence, xs => xs.headD false == xs.getLastD false

end Connective

end PropDiagram
