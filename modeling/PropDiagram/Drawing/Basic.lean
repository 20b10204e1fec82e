import PropDiagram.Fault
import PropDiagram.OrderedMap

set_option autoImplicit false

/-! # Drawings

A drawing is a directed graph to be laid out: nodes with labels and perhaps colors, edges with
perhaps labels. Nodes are known by numbers. An edge may be drawn several times, and each time its
target is listed once more among the successors; the label belongs to the pair of nodes.

Adding to an empty drawing numbers the nodes from zero on, and refuses edges between nodes that are
not there. A drawing may also start from given parts, about which nothing is assumed. -/

namespace PropDiagram

/-! ## Labels -/

/-- What a node shows. -/
inductive Label where
  | text (value : String)
  | truth (value : Bool)
  | number (value : Int)
  | none
deriving DecidableEq, Repr

namespace Label

/-- A truth value that may be missing, as a label. -/
def ofTruth : Option Bool → Label
  | some b => truth b
  | Option.none => none

/-- A name that may be missing, as a label. -/
def ofName : Option String → Label
  | some s => text s
  | Option.none => none

def shown : Label → String
  | text s => s
  | truth b => Text.ofBool b
  | number i => toString i
  | none => "None"

def quoted : Label → String
  | text s => Text.quoted s
  | l => l.shown

/-- Whether two labels count as the same, where true is the number one and false is zero. -/
def same : Label → Label → Bool
  | truth a, number j => (a.toNat : Int) == j
  | number i, truth b => i == (b.toNat : Int)
  | a, b => a == b

end Label

/-! ## Drawings -/

/-- A graph to be laid out. Every part lists its entries in the order in which they came. -/
structure Drawing where
  labels : OrderedMap Int Label
  /-- The successors of the nodes that have some. -/
  successorLists : OrderedMap Int (List Int)
  colors : OrderedMap Int (Option String)
  edgeLabels : OrderedMap (Int × Int) (Option String)

namespace Drawing

def empty : Drawing := ⟨.empty, .empty, .empty, .empty⟩

def size (d : Drawing) : Nat := d.labels.size

/-- Adds a node, whose number is the number of nodes before. -/
def addNode (d : Drawing) (label : Label) (color : Option String) : Drawing × Int :=
  let u : Int := d.size
  ({ d with
      labels := d.labels.insert u label
      colors := if color.isSome then d.colors.insert u color else d.colors }, u)

/-- The successors of a node, in the order in which the edges came. -/
def successors (d : Drawing) (u : Int) : List Int := (d.successorLists.get? u).getD []

/-- Appends `v` to the successors of `u`. A missing label leaves an earlier label in place. What was
    changed before a fault stays changed. -/
def connect (u v : Int) (label : Option String) : EStateM Fault Drawing Unit := do
  if !(← get).labels.contains u then throw (.nodeNotDrawn u)
  if !(← get).labels.contains v then throw (.nodeNotDrawn v)
  modify fun d => { d with successorLists := d.successorLists.insert u (d.successors u ++ [v]) }
  if label.isSome then modify fun d => { d with edgeLabels := d.edgeLabels.insert (u, v) label }

/-- The drawing with one more edge. -/
def addEdge (d : Drawing) (u v : Int) (label : Option String) : Except Fault Drawing :=
  match (connect u v label).run d with
  | .ok _ d => .ok d
  | .error e _ => .error e

/-- All is checked before anything is changed, so a refused edge leaves the drawing as it is. -/
theorem run_connect (d : Drawing) (u v : Int) (label : Option String) :
    (connect u v label).run d =
      if !d.labels.contains u then .error (.nodeNotDrawn u) d
      else if !d.labels.contains v then .error (.nodeNotDrawn v) d
      else .ok () { d with
        successorLists := d.successorLists.insert u (d.successors u ++ [v])
        edgeLabels := if label.isSome then d.edgeLabels.insert (u, v) label else d.edgeLabels } := by
  rw [connect]
  cases hu : d.labels.contains u with
  | false => simp [hu]
  | true =>
    cases hv : d.labels.contains v with
    | false => simp [hu, hv]
    | true =>
      simp only [EStateM.run_bind, EStateM.run_get, hu, hv, Bool.not_true, Bool.false_eq_true,
        ↓reduceIte]
      cases label <;> rfl

theorem addEdge_eq (d : Drawing) (u v : Int) (label : Option String) :
    d.addEdge u v label =
      if !d.labels.contains u then .error (.nodeNotDrawn u)
      else if !d.labels.contains v then .error (.nodeNotDrawn v)
      else .ok { d with
        successorLists := d.successorLists.insert u (d.successors u ++ [v])
        edgeLabels := if label.isSome then d.edgeLabels.insert (u, v) label else d.edgeLabels } := by
  rw [addEdge, run_connect]
  cases d.labels.contains u <;> cases d.labels.contains v <;> rfl

/-- Whether two drawings have the same nodes, edges, colors and labels, whatever order the nodes
    came in. -/
def same (a b : Drawing) : Bool :=
  a.labels.equivalent Label.same b.labels &&
    a.successorLists.equivalent (· == ·) b.successorLists &&
    a.colors.equivalent (· == ·) b.colors &&
    a.edgeLabels.equivalent (· == ·) b.edgeLabels

/-- The four parts of the drawing as text. -/
def text (d : Drawing) : String :=
  let edge (e : Int × Int) := Text.tuple [toString e.1, toString e.2]
  "GraphDescription(ids=" ++
    Text.mapping (d.labels.toList.map fun e => (toString e.1, e.2.quoted)) ++ ", edges=" ++
    Text.mapping (d.successorLists.toList.map fun e =>
      (toString e.1, Text.list (e.2.map fun (v : Int) => toString v))) ++ ", colors=" ++
    Text.mapping (d.colors.toList.map fun e => (toString e.1, Text.quotedOption e.2)) ++
    ", edge_labels=" ++
    Text.mapping (d.edgeLabels.toList.map fun e => (edge e.1, Text.quotedOption e.2)) ++ ")"

end Drawing

end PropDiagram
