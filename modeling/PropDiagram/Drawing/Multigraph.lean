import PropDiagram.Drawing.Basic

set_option autoImplicit false

/-! # Multigraphs

The form of a drawing that layout programs take: nodes with attributes, then edges with attributes.
All labels are text, attributes that are missing are left out, and an edge drawn several times
becomes one. The nodes of the drawing come first, in its order, then those that only edges mention,
without attributes. The edges come by their source, in the order of the nodes. -/

namespace PropDiagram

structure NodeStyle where
  label : Option String
  color : Option String
deriving DecidableEq, Repr

/-- An edge and its label. -/
structure StyledEdge where
  source : Int
  target : Int
  label : Option String
deriving DecidableEq, Repr

/-- Nodes and edges with attributes. -/
structure Multigraph where
  nodes : OrderedMap Int NodeStyle
  edges : List StyledEdge

namespace Multigraph

/-- Adds a node without attributes, unless it is there. -/
def mention (nodes : OrderedMap Int NodeStyle) (u : Int) : OrderedMap Int NodeStyle :=
  if nodes.contains u then nodes else nodes.insert u ⟨none, none⟩

/-- The nodes of a drawing with their attributes. -/
def drawnNodes (d : Drawing) : OrderedMap Int NodeStyle :=
  d.labels.toList.foldl
    (fun nodes e => nodes.insert e.1 ⟨some e.2.shown, (d.colors.get? e.1).join⟩) .empty

/-- The nodes, then those that only edges mention, sources before targets. -/
def allNodes (d : Drawing) : OrderedMap Int NodeStyle :=
  d.successorLists.toList.foldl
    (fun nodes e => e.2.foldl (fun nodes v => mention (mention nodes e.1) v) nodes)
    (drawnNodes d)

/-- The edges that leave a node, one for each distinct successor. -/
def edgesFrom (d : Drawing) (u : Int) : List StyledEdge :=
  (d.successors u).eraseDups.map fun v => ⟨u, v, (d.edgeLabels.get? (u, v)).join⟩

/-- The multigraph of a drawing. -/
def ofDrawing (d : Drawing) : Multigraph :=
  let nodes := allNodes d
  ⟨nodes, nodes.keys.flatMap (edgesFrom d)⟩

end Multigraph

end PropDiagram
