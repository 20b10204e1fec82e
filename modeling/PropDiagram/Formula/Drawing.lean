import PropDiagram.Drawing.Basic
import PropDiagram.Formula.Evaluation

set_option autoImplicit false

/-! # Drawing formulas

The drawing of a formula has a node for every node of the tree, also for every occurrence of a
literal. Nodes are numbered in post-order, operands from left to right, so the root comes last. Each
application has edges to its operands, in their order. -/

namespace PropDiagram.Formula

/-- A step that adds nodes to a drawing, going a limited number of levels deep, and tells the last
    node added. -/
abbrev DrawStep : Type := (limit : Nat) → Drawing → Except Fault (Drawing × Int)

/-- Draws operands one after the other, and lists their nodes. -/
def drawAll (limit : Nat) : List DrawStep → Drawing → Except Fault (Drawing × List Int)
  | [], d => .ok (d, [])
  | step :: steps, d => do
    let (d, u) ← step limit d
    let (d, us) ← drawAll limit steps d
    pure (d, u :: us)

/-- Draws operands one level deeper. -/
def drawOperands (limit : Nat) (operands : List DrawStep) (d : Drawing) :
    Except Fault (Drawing × List Int) :=
  match limit with
  | 0 => if operands.isEmpty then .ok (d, []) else .error .nestedTooDeeply
  | limit + 1 => drawAll limit operands d

/-- Adds the edges from a node to the nodes listed. -/
def drawEdges (u : Int) : List Int → Drawing → Except Fault Drawing
  | [], d => .ok d
  | v :: vs, d => do
    let d ← d.addEdge u v none
    drawEdges u vs d

/-- Adds the formula to a drawing. -/
def drawOnto : Formula String → DrawStep :=
  fold (fun name _ d => .ok (d.addNode (.text name) none))
    fun op operands limit d => do
      let (d, vs) ← drawOperands limit operands d
      let (d, u) := d.addNode (.text op) none
      let d ← drawEdges u vs d
      pure (d, u)

/-- The drawing of the formula. -/
def draw [DepthLimits] (f : Formula String) : Except Fault Drawing :=
  (f.drawOnto nestingLimit .empty).map Prod.fst

end PropDiagram.Formula
