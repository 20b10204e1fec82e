import PropDiagram.Fault
import PropDiagram.Formula.Basic
import PropDiagram.Token

set_option autoImplicit false

/-! # Reading formulas

A formula is a literal, a bracketed negation `( NOT formula )`, or a bracketed application
`( formula connective formula )`, where the connective may be any of the five keywords. One token
decides each step: an opening bracket starts a bracketed formula, a negation keyword right after it
commits to the negation, and any other token must be a literal.

A rule reads from the front of a token sequence and leaves the rest, also when it fails, so that it
is known how far it came. Brackets nest at most `limit` deep; going deeper is a fault at the moment
it happens, so that what stands before it is judged first. -/

namespace PropDiagram

/-! ## Limits -/

/-- How far recursion may go. This depends on the stack that a caller leaves, so what is proved holds
    for every choice. -/
class DepthLimits where
  /-- How deep formulas may nest, in reading, evaluating and drawing. -/
  nestingLimit : Nat
  /-- How many calls may be open while a formula is written for a record. -/
  printingLimit : Nat

export DepthLimits (nestingLimit printingLimit)

/-- The limits where a caller has used up little of a stack of usual size. -/
instance DepthLimits.usual : DepthLimits := ⟨500, 990⟩

/-! ## Rules -/

/-- Reads a prefix of a token sequence: the result or the fault, and the tokens not read. -/
def Rule (α : Type) : Type := List Token → Except Fault α × List Token

namespace Rule

variable {α β : Type}

protected def pure (a : α) : Rule α := fun ts => (.ok a, ts)

/-- Goes on where `x` stopped, unless it failed. -/
protected def bind (x : Rule α) (f : α → Rule β) : Rule β := fun ts =>
  match x ts with
  | (.ok a, rest) => f a rest
  | (.error e, rest) => (.error e, rest)

instance : Monad Rule where
  pure := Rule.pure
  bind := Rule.bind

theorem bind_eq (x : Rule α) (f : α → Rule β) (ts : List Token) :
    (x >>= f) ts = match x ts with
      | (.ok a, rest) => f a rest
      | (.error e, rest) => (.error e, rest) := rfl

theorem pure_eq (a : α) (ts : List Token) : (pure a : Rule α) ts = (.ok a, ts) := rfl

def fail (e : Fault) : Rule α := fun ts => (.error e, ts)

/-- The next token, which is then read. -/
def next : Rule Token
  | [] => (.error .endOfInput, [])
  | t :: ts => (.ok t, ts)

/-- The next token, which stays unread. -/
def peek : Rule Token := fun ts => (.ok (Token.ahead ts), ts)

/-! ## The grammar -/

def literal : Rule (Formula String) := do
  match ← next with
  | some s => if Token.isName s then pure (.literal s) else fail (.operandExpected (some s))
  | none => fail (.operandExpected none)

def opening : Rule Unit := do
  if (← next) = some Token.opening then pure () else fail .openingExpected

def closing : Rule Unit := do
  if (← next) = some Token.closing then pure () else fail .closingExpected

/-- A keyword, as the connective between two operands. -/
def connective : Rule String := do
  match ← next with
  | some s => if Token.isKeyword s then pure s else fail (.connectiveExpected (some s))
  | none => fail (.connectiveExpected none)

/-- The inside of a negation after its keyword. -/
def negation (operand : Rule (Formula String)) : Rule (Formula String) := do
  let x ← operand
  closing
  pure (.apply Connective.negation.keyword [x])

/-- The inside of an application after its bracket. -/
def application (operand : Rule (Formula String)) : Rule (Formula String) := do
  let x ← operand
  let op ← connective
  let y ← operand
  closing
  pure (.apply op [x, y])

/-- A bracketed formula whose operands are read by the given rule. -/
def bracketed (operand : Rule (Formula String)) : Rule (Formula String) := do
  opening
  -- No operand starts with a keyword, so this token cannot belong to an application.
  if (← peek) = some Connective.negation.keyword then
    let _ ← next
    negation operand
  else
    application operand

/-- A formula in which brackets nest at most `limit` deep. -/
def formula : (limit : Nat) → Rule (Formula String)
  | 0 => do
    if (← peek) = some Token.opening then fail .nestedTooDeeply else literal
  | limit + 1 => do
    if (← peek) = some Token.opening then bracketed (formula limit) else literal

end Rule

/-! ## Whole sequences -/

/-- The formula that the tokens form, where brackets nest at most `limit` deep. All tokens must be
    read, but a gap right after the formula counts as the end. -/
def parseWithin (limit : Nat) (tokens : List Token) : Except Fault (Formula String) :=
  match Rule.formula limit tokens with
  | (.ok f, rest) => if Token.ahead rest = none then .ok f else .error .trailingInput
  | (.error e, _) => .error e

def parse [DepthLimits] (tokens : List Token) : Except Fault (Formula String) :=
  parseWithin nestingLimit tokens

end PropDiagram
