import PropDiagram.Diagram.Drawing
import PropDiagram.Formula.Drawing
import PropDiagram.Formula.Record
import PropDiagram.Lexeme

set_option autoImplicit false

/-! # From text to drawings

The operations that start from a text: reading the formula, drawing it, and drawing its decision
diagram. Each reports its steps as it goes. A text without tokens is refused as empty where a formula
is asked for from outside; the plain reader only finds that its input ends. -/

namespace PropDiagram.FromText

variable [DepthLimits]

/-! ## Formulas -/

def tokens (text : String) : Traced Event (List String) := do
  let tokens := tokenize text
  Traced.report (.tokenized tokens.length text)
  pure tokens

/-- The formula that tokens form. Its text is written for the report, and this is no part of reading:
    where the stack does not suffice for it, there is no formula either. -/
def parseTokens (tokens : List Token) : Traced Event (Formula String) := do
  let f ← Traced.ofExcept (parse tokens)
  let text ← Traced.ofExcept (f.textWithin printingLimit)
  Traced.report (.parsed text)
  pure f

/-- The formula that a text writes. -/
def parseText (text : String) : Traced Event (Formula String) := do
  let ts ← tokens text
  parseTokens (ts.map some)

/-- The formula that a text writes, where the text must not be empty. -/
def formula (text : String) : Traced Event (Formula String) := do
  let ts ← tokens text
  if ts.isEmpty then Traced.fail .emptyInput
  else parseTokens (ts.map some)

/-! ## Drawings -/

def formulaDrawing (f : Formula String) : Traced Event Drawing := do
  let drawing ← Traced.ofExcept f.draw
  Traced.report (.formulaDrawn drawing.size)
  pure drawing

def drawing (text : String) : Traced Event Drawing := do
  let f ← formula text
  formulaDrawing f

/-- How to draw a diagram: reduced or not, over which order of names, within which limits. -/
structure Choices where
  reduced : Bool
  order : Option (List String)
  limits : Diagram.Limits
deriving Repr

/-- Reduced, over the formula's own names, within the usual limits. -/
def Choices.usual : Choices := ⟨true, none, .usual⟩

/-- The drawing of a diagram, after reduction if asked for. -/
def diagramDrawing (d : Diagram) (reduced : Bool) : Traced Event Drawing :=
  if reduced then do
    let r ← d.reduceTraced false
    Traced.ofExcept (r.draw .usual)
  else Traced.ofExcept (d.draw .usual)

/-- The drawing of the decision diagram of the formula that a text writes. -/
def diagram (text : String) (choices : Choices) : Traced Event Drawing := do
  let f ← formula text
  let d ← Diagram.build f choices.order choices.limits
  let drawing ← diagramDrawing d choices.reduced
  Traced.report (.diagramDrawn drawing.size text)
  pure drawing

end PropDiagram.FromText
