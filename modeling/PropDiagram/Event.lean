import PropDiagram.Traced

set_option autoImplicit false

/-! # Events

What the operations report as they go: an event per step worth knowing, with a level of importance
and the part of the library that it comes from. -/

namespace PropDiagram

inductive Level where
  | debug
  | info
  | warning
  | error
deriving DecidableEq, Repr

def Level.rank : Level → Nat
  | debug => 0
  | info => 1
  | warning => 2
  | error => 3

/-- The part of the library that an event comes from. -/
inductive Origin where
  | reading
  | formula
  | diagram
  | entry
deriving DecidableEq, Repr

/-- A step worth knowing. -/
inductive Event where
  | tokenized (count : Nat) (text : String)
  | parsed (text : String)
  | formulaDrawn (nodes : Nat)
  | largeTree (literals : Nat)
  | treeBuilt (literals : Nat)
  | reduced (visited kept : Nat)
  | diagramDrawn (nodes : Nat) (text : String)
deriving Repr

namespace Event

def level : Event → Level
  | tokenized _ _ | parsed _ | formulaDrawn _ | reduced _ _ | diagramDrawn _ _ => .debug
  | treeBuilt _ => .info
  | largeTree _ => .warning

def origin : Event → Origin
  | tokenized _ _ | parsed _ => .reading
  | formulaDrawn _ => .formula
  | largeTree _ | treeBuilt _ | reduced _ _ => .diagram
  | diagramDrawn _ _ => .entry

def message : Event → String
  | tokenized count text => toString count ++ " tokens in " ++ Text.quoted text
  | parsed text => "parsed: " ++ text
  | formulaDrawn nodes => "formula graph with " ++ toString nodes ++ " nodes"
  | largeTree n =>
    "building a decision tree with " ++ toString n ++ " literals (" ++ toString (completeSize n) ++
      " nodes)"
  | treeBuilt n =>
    "naive decision tree: " ++ toString n ++ " literals, " ++ toString (completeSize n) ++ " nodes"
  | reduced visited kept =>
    "reduced " ++ toString visited ++ " distinct nodes to " ++ toString kept ++ " nodes"
  | diagramDrawn nodes text =>
    toString nodes ++ " nodes in diagram of " ++ Text.quoted text

/-- The events at least as important as the level. -/
def atLeast (level : Level) (events : List Event) : List Event :=
  events.filter fun e => level.rank ≤ e.level.rank

end Event

end PropDiagram
