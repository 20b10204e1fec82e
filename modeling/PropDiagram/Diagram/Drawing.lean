import PropDiagram.Diagram.Reduction
import PropDiagram.Drawing.Basic

set_option autoImplicit false

/-! # Drawing diagrams

The drawing of a diagram shows every test with its literal, every terminal with its truth value and
perhaps a color, and labels the edge to the low successor `F` and the one to the high successor `T`.
If both lead to the same node, it is drawn twice and labeled `F/T`.

A diagram is drawn in post-order, so that the root comes last, and a reduced diagram in the order of
its identities, which become the numbers of the nodes. -/

namespace PropDiagram

/-- The colors of terminals, by truth value. -/
abbrev Palette : Type := Option Bool → Option String

/-- False is red, true is green, and anything else has no color. -/
def Palette.usual : Palette
  | some false => some "red"
  | some true => some "green"
  | none => none

def Drawing.addBranches (d : Drawing) (u low high : Int) : Except Fault Drawing :=
  if low = high then do
    let d ← d.addEdge u low (some "F/T")
    d.addEdge u high (some "F/T")
  else do
    let d ← d.addEdge u low (some "F")
    d.addEdge u high (some "T")

def Drawing.addTerminal (d : Drawing) (palette : Palette) (value : Option Bool) : Drawing × Int :=
  d.addNode (.ofTruth value) (palette value)

namespace Diagram

/-- What is drawn so far, and the numbers of the nodes drawn. -/
structure Progress where
  drawing : Drawing
  numbers : Array (Option Int)

/-- Draws one node of a table, whose successors must have been drawn. -/
def drawNode (t : Table) (palette : Palette) (s : Progress) (u : Nat) : Except Fault Progress :=
  match t.decision? u with
  | some (name, low, high) =>
    match s.numbers[low.val]?.join, s.numbers[high.val]?.join with
    | some p, some q => do
      let (drawing, r) := s.drawing.addNode (.text name) none
      let drawing ← drawing.addBranches r p q
      pure ⟨drawing, s.numbers.setIfInBounds u (some r)⟩
    -- In post-order both successors come before the node.
    | _, _ => throw (.successorNotFound none)
  | none =>
    let (drawing, r) := s.drawing.addTerminal palette (t.value u)
    pure ⟨drawing, s.numbers.setIfInBounds u (some r)⟩

/-- The drawing of the diagram, in which a shared node is one node. -/
def draw (d : Diagram) (palette : Palette) : Except Fault Drawing :=
  (d.nodes.foldlM (drawNode d.table palette) ⟨.empty, Array.replicate d.table.size none⟩).map
    Progress.drawing

end Diagram

namespace Reduced

/-- Draws the node with the identity `u`. -/
def drawEntry (palette : Palette) (drawing : Drawing) (u : Nat) : Entry → Except Fault Drawing
  | .terminal value => .ok (drawing.addTerminal palette value).1
  | .test name low high => (drawing.addNode (.ofName name) none).1.addBranches u low high

/-- The drawing of all nodes of the reduced diagram. -/
def draw (r : Reduced) (palette : Palette) : Except Fault Drawing :=
  r.table.entries.toList.zipIdx.foldlM (fun drawing e => drawEntry palette drawing e.2 e.1) .empty

end Reduced

end PropDiagram
