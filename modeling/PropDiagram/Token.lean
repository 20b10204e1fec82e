import PropDiagram.Connective

set_option autoImplicit false

/-! # Tokens

A formula is read from a sequence of tokens. A token is a text, and a sequence may have gaps: a gap
is neither bracket, keyword nor literal, and looking ahead does not tell it from the end of the
sequence. Every text that is no bracket and no keyword can name a literal, also the empty one. -/

namespace PropDiagram

/-- An entry of a token sequence: a text, or a gap. -/
abbrev Token := Option String

namespace Token

def opening : String := "("

def closing : String := ")"

def isBracket (s : String) : Bool := s == opening || s == closing

def isKeyword (s : String) : Bool := (Connective.ofKeyword? s).isSome

/-- Whether the text can name a literal. -/
def isName (s : String) : Bool := !isKeyword s && !isBracket s

/-- The token that stands first; at the end the same as at a gap. -/
def ahead : List Token → Token
  | [] => none
  | t :: _ => t

/-- Whether the entry can name a literal; a gap cannot. -/
def isLiteral : Token → Bool
  | some s => isName s
  | none => false

@[simp] theorem isLiteral_some (s : String) : isLiteral (some s) = isName s := rfl

@[simp] theorem isLiteral_none : isLiteral none = false := rfl

@[simp] theorem isKeyword_keyword (c : Connective) : isKeyword c.keyword = true := by
  simp [isKeyword]

theorem isKeyword_iff {s : String} : isKeyword s = true ↔ ∃ c : Connective, s = c.keyword := by
  simp [isKeyword, Option.isSome_iff_exists, Connective.ofKeyword?_eq_some_iff]

end Token

end PropDiagram
