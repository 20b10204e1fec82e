import PropDiagram.FromText

set_option autoImplicit false

/-! # Demonstration: truth tables

Prints truth tables of formulas, and tells tautologies from contradictions. The trace of a printing
computation is the lines printed and the events reported in between, so a fault leaves the lines and
events before it. -/

namespace PropDiagram.Demo

/-- What a demonstration gives out: a line for the reader, or an event. -/
inductive Output where
  | line (text : String)
  | event (event : Event)
deriving Repr

def Output.line? : Output → Option String
  | line text => some text
  | event _ => none

def Output.event? : Output → Option Event
  | line _ => none
  | event e => some e

abbrev Printed (α : Type) : Type := Traced Output α

def printLine (line : String) : Printed Unit := Traced.report (.line line)

/-- Runs an operation of the library and passes its events on. -/
def relay {α : Type} (x : Traced Event α) : Printed α := x.mapTrace .event

/-- Prints lines, one after the other. -/
def printLines : List String → Printed Unit
  | [] => pure ()
  | line :: lines => do
    printLine line
    printLines lines

/-- Names and numbers side by side. -/
def columns (cells : List String) : String := " ".intercalate cells

def digit (b : Bool) : String := if b then "1" else "0"

def rightAligned (width : Nat) (s : String) : String :=
  String.ofList (List.replicate (width - s.length) ' ') ++ s

/-- A row of a truth table: a digit under each name, and the value of the formula. -/
def row (values : Assignment) (value : Bool) : String :=
  columns (values.map fun e => rightAligned e.1.length (digit e.2)) ++ " | " ++ digit value

/-- Prints the truth table of the formula that a text writes, and gives the column of values. -/
def printTruthTable [DepthLimits] (text : String) : Printed (List Bool) := do
  let f ← relay (FromText.formula text)
  printLine text
  printLine (columns f.names ++ " | value")
  let table ← Traced.ofExcept (f.truthTable f.names)
  printLines (table.map fun e => row e.1 e.2)
  pure (table.map Prod.snd)

/-- What a formula with this column of values is. -/
def classification (column : List Bool) : String :=
  if column.all id then "tautology"
  else if !column.any id then "contradiction"
  else "contingent"

/-- A tautology, a contradiction and a formula that is neither. -/
def classified : List String :=
  [ "((p IMP q) IFF ((NOT q) IMP (NOT p)))",
    "(p AND (NOT p))",
    "((p IMP q) AND (q IMP p))" ]

/-- Prints the truth table of each formula and what it is. -/
def classifyAll [DepthLimits] : List String → Printed Unit
  | [] => pure ()
  | text :: texts => do
    let column ← printTruthTable text
    printLine (classification column)
    printLine ""
    classifyAll texts

/-- Classifies three formulas, then shows how assignments are counted and numbered. -/
def classifyFormulas [DepthLimits] : Printed Unit := do
  classifyAll classified
  let assignments ← Traced.ofExcept (Assignments.ofOrder ["x", "y", "z"])
  let n ← Traced.ofExcept assignments.length
  printLine (toString n ++ " assignments to x, y, z")
  let last ← Traced.ofExcept (assignments.get (-1))
  printLine ("the last one is " ++ last.text)

end PropDiagram.Demo
