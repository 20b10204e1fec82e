import PropDiagram.Demo.TruthTable
import PropDiagram.Diagram.Count
import PropDiagram.Drawing.Multigraph

set_option autoImplicit false

/-! # Demonstration: from a formula to a reduced diagram

Builds the naive diagram of a formula, reduces it, counts its models and lists the edges of its
drawing. Sharing equal subtrees shrinks the diagram, and its truth values stay the same. -/

namespace PropDiagram.Demo

/-- The formula of the demonstration. -/
def exampleText : String := "(A AND (B OR (NOT C)))"

def edgeLine (e : StyledEdge) : String :=
  toString e.source ++ " -> " ++ toString e.target ++ " [" ++ e.label.getD "None" ++ "]"

/-- Checks that a diagram answers as the formula does under an assignment. -/
def checkAgreement [DepthLimits] (f : Formula String) (r : Reduced) (a : Assignment) :
    Except Fault Unit := do
  let expected ← f.evaluate a.valuation
  let result ← r.evaluate a.valuation
  if result ≠ some expected then throw (.disagreement a.text expected result)

/-- Prints the way from a formula to its reduced diagram. -/
def formulaToDiagram [DepthLimits] : Printed Unit := do
  let f ← relay (FromText.formula exampleText)
  let order := f.names
  printLine ("formula: " ++ f.text)
  printLine ("literals: " ++ Text.list (order.map Text.quoted))
  let naive ← relay (Diagram.build f (some order) .usual)
  printLine ("naive tree: " ++ toString naive.tree.size ++ " nodes")
  let reduced ← relay (naive.reduceTraced false)
  printLine ("reduced diagram: " ++ toString reduced.size ++ " nodes")
  printLine reduced.text
  let n ← Traced.ofExcept (reduced.count order)
  printLine (n.text ++ " satisfying assignments")
  let assignments ← Traced.ofExcept (Assignments.ofOrder order)
  let _ ← Traced.ofExcept (assignments.mapAll (checkAgreement f reduced))
  let drawing ← Traced.ofExcept (reduced.draw .usual)
  let graph := Multigraph.ofDrawing drawing
  printLine (toString graph.nodes.size ++ " nodes, " ++ toString graph.edges.length ++ " edges")
  printLines (graph.edges.map edgeLine)

end PropDiagram.Demo
