import PropDiagram.Diagram.Basic

set_option autoImplicit false

/-! # Reduced diagrams

A reduced diagram is a table of nodes, known by their places as identities, with a root that may be
missing. A diagram under construction may have any root, also one that is no node of it: whoever
asks for the root then learns that it is not there. -/

namespace PropDiagram

/-- A table of nodes with the identity of the root. -/
structure Reduced where
  table : Table
  root : Option Int
deriving DecidableEq

namespace Reduced

def empty : Reduced := ⟨.empty, none⟩

def size (r : Reduced) : Nat := r.table.size

/-! ## Nodes -/

/-- The place of a node in the table, if the table has it. -/
def place? (r : Reduced) (u : Option Int) : Option (Fin r.size) :=
  u.bind fun i => if h : 0 ≤ i ∧ i < r.size then some ⟨i.toNat, by omega⟩ else none

def contains (r : Reduced) (u : Option Int) : Bool := (r.place? u).isSome

def entry? (r : Reduced) (u : Option Int) : Option Entry :=
  (r.place? u).map fun p => r.table.get p

/-- The entry of a node that must be there. -/
def entry (r : Reduced) (u : Option Int) : Except Fault Entry :=
  match r.entry? u with
  | some e => .ok e
  | none => .error (.nodeNotFound u)

/-- The truth value of a terminal. -/
def value (r : Reduced) (u : Option Int) : Except Fault (Option Bool) :=
  match r.entry? u with
  | some (.terminal v) => .ok v
  | _ => .error (.notATerminal u)

def isTerminal (r : Reduced) (u : Option Int) : Bool := (r.entry? u).any Entry.isTerminal

/-- The first terminal with this truth value. -/
def terminal? (r : Reduced) (b : Bool) : Option Nat :=
  r.table.entries.findIdx? fun e => e = .terminal (some b)

/-! ## Adding nodes -/

/-- Adds a terminal, also if there is one with this value, and tells its identity. -/
def addTerminal (r : Reduced) (value : Option Bool) : Reduced × Nat :=
  ({ r with table := r.table.push (.terminal value) trivial }, r.size)

/-- Adds a test whose successors must be there, also if there is an equal one, and tells its
    identity. -/
def addTest (r : Reduced) (name : Option String) (low high : Option Int) :
    Except Fault (Reduced × Nat) :=
  match r.place? low, r.place? high with
  | none, _ => .error (.successorNotFound low)
  | some _, none => .error (.successorNotFound high)
  | some p, some q =>
    .ok ({ r with table := r.table.push (.test name p q) ⟨p.isLt, q.isLt⟩ }, r.size)

/-! ## Meaning -/

/-- The truth value that the diagram reaches when the literals have these values. -/
def evaluate (r : Reduced) (values : Valuation) : Except Fault (Option Bool) :=
  match r.place? r.root with
  | some u => r.table.follow values u
  | none => .error (.nodeNotFound r.root)

/-! ## Back to diagrams -/

/-- An entry in which a terminal without truth value counts as false. -/
def settled : Entry → Entry
  | .terminal value => .terminal (some (value.getD false))
  | .test name low high => .test name low high

theorem ordered_settled {entries : Array Entry} (h : Ordered entries) :
    Ordered (entries.map settled) := by
  intro u e hu
  rw [Array.getElem?_map, Option.map_eq_some_iff] at hu
  obtain ⟨x, hx, rfl⟩ := hu
  have fits := h u x hx
  cases x with
  | terminal value => trivial
  | test name low high => exact fits

/-- The diagram of the root. Every terminal of it has a truth value. -/
def toDiagram (r : Reduced) : Except Fault Diagram :=
  match r.place? r.root with
  | some p => .ok ⟨⟨_, ordered_settled r.table.ordered⟩, p,
      show p.val < (r.table.entries.map settled).size from Array.size_map.symm ▸ p.isLt⟩
  | none => .error (.nodeNotFound r.root)

/-! ## Text -/

/-- The literal and the successors of an entry, none of which a terminal has. -/
def entryText : Entry → String
  | .terminal _ => Text.tuple [Text.quotedOption none, Text.ofIntOption none, Text.ofIntOption none]
  | .test name low high => Text.tuple [Text.quotedOption name, toString low, toString high]

/-- The truth value of an entry, if it is a terminal. -/
def valueText? : Entry → Option String
  | .terminal value => some (Text.ofBoolOption value)
  | .test _ _ _ => none

/-- The diagram as text: its root, its nodes and the values of its terminals. -/
def text (r : Reduced) : String :=
  let numbered := r.table.entries.toList.zipIdx
  let nodes := numbered.map fun e => (toString e.2, entryText e.1)
  let terminals := numbered.filterMap fun e => (valueText? e.1).map fun v => (toString e.2, v)
  "Reduced decision diagram:\n" ++ "-------------------------\n" ++
    "root: " ++ Text.ofIntOption r.root ++ "\n" ++
    "nodes: " ++ Text.mapping nodes ++ "\n" ++
    "terminals: " ++ Text.mapping terminals ++ "\n"

end Reduced

end PropDiagram
