import PropDiagram.Formula.Basic
import PropDiagram.Text.Quoted

set_option autoImplicit false

/-! # Printed formulas

Three forms of a formula as text. `text` is the one that can be read back: operands in brackets,
with the connective between them, or before a single one. `shape` names the kind of every node, and
`flattened` writes the connective in front. -/

namespace PropDiagram.Formula

/-- The application of a connective to printed operands: `(OP x)` for one operand, else the operands
    joined by the connective. -/
def applicationText (op : String) (operands : List String) : String :=
  match operands with
  | [x] => "(" ++ op ++ " " ++ x ++ ")"
  | xs => "(" ++ (" " ++ op ++ " ").intercalate xs ++ ")"

/-- The formula with all its brackets, as it can be read. -/
def text : Formula String → String := fold id applicationText

@[simp] theorem text_literal (name : String) : (literal name).text = name := fold_literal ..

@[simp] theorem text_apply (op : String) (xs : List (Formula String)) :
    (apply op xs).text = applicationText op (xs.map text) := fold_apply ..

/-- The formula as nested descriptions of its nodes, with quoted names. -/
def shape : Formula String → String :=
  fold (fun name => "Literal(" ++ Text.quoted name ++ ")")
    (fun op operands => "Operator(" ++ Text.quoted op ++ ", " ++ Text.joined operands ++ ")")

/-- The formula with the connective before its operands. -/
def flattened : Formula String → String :=
  fold id (fun op operands => "( " ++ op ++ " " ++ Text.joined operands ++ " )")

/-! ## Samples -/

/-- A formula with a negation, for samples. -/
def sample : Formula String :=
  apply "AND" [literal "A", apply "OR" [literal "B", apply "NOT" [literal "C"]]]

example : sample.text = "(A AND (B OR (NOT C)))" := by decide +kernel

example : sample.flattened = "( AND A, ( OR B, ( NOT C ) ) )" := by decide +kernel

example : (apply "AND" []).shape = "Operator('AND', )" := by decide +kernel

end PropDiagram.Formula
