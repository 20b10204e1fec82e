import PropDiagram.Diagram.Table
import PropDiagram.Event

set_option autoImplicit false

/-! # Decision diagrams

A decision diagram is a node of a table. The naive diagram of a formula is its decision tree, in
which only the two terminals are shared. -/

namespace PropDiagram

/-- A table of nodes, one of which is the root. -/
structure Diagram where
  table : Table
  root : Nat
  root_lt : root < table.size

namespace Diagram

/-- The tree that the diagram unfolds to. -/
def tree (d : Diagram) : Tree := d.table.unfold d.root

/-- The nodes of the diagram in post-order. -/
def nodes (d : Diagram) : List Nat := d.table.postorder d.root

/-- The node of the table, if the table has it. -/
def ofTable? (t : Table) (root : Nat) : Option Diagram :=
  if h : root < t.size then some ⟨t, root, h⟩ else none

/-! ## From trees -/

/-- The two terminals, false before true. -/
def terminals : Array Entry := #[.terminal (some false), .terminal (some true)]

/-- The place of the terminal with this value, among the two. -/
def terminalPlace (value : Option Bool) : Nat := if value = some true then 1 else 0

/-- Lists the tests of a tree after the entries given, successors first, and tells the place of its
    root. The leaves are the terminals at the front. -/
def place : Tree → Array Entry → Array Entry × Nat
  | .leaf value, entries => (entries, terminalPlace value)
  | .node name low high, entries =>
    let (entries, p) := place low entries
    let (entries, q) := place high entries
    let u := entries.size
    (entries.push (.test name p q), u)

theorem place_ordered (tree : Tree) {entries : Array Entry} (h : Ordered entries)
    (hsize : 2 ≤ entries.size) :
    Ordered (place tree entries).1 ∧ (place tree entries).2 < (place tree entries).1.size ∧
      entries.size ≤ (place tree entries).1.size := by
  induction tree generalizing entries with
  | leaf value =>
    refine ⟨h, ?_, Nat.le_refl _⟩
    simp only [place, terminalPlace]
    split <;> omega
  | node name low high ihl ihh =>
    obtain ⟨hl, hlow, hle⟩ := ihl h hsize
    obtain ⟨hh, hhigh, hge⟩ := ihh hl (by omega)
    simp only [place]
    refine ⟨hh.push ⟨by omega, hhigh⟩, by simp, ?_⟩
    simp only [Array.size_push]
    omega

theorem ordered_terminals : Ordered terminals :=
  (ordered_empty.push (e := .terminal (some false)) trivial).push (e := .terminal (some true)) trivial

/-- The tree as a diagram that shares the two terminals and nothing else. -/
def ofTree (tree : Tree) : Diagram :=
  let r := place tree terminals
  have h := place_ordered tree ordered_terminals (Nat.le_refl 2)
  ⟨⟨r.1, h.1⟩, r.2, h.2.1⟩

/-! ## From formulas -/

/-- How large a decision tree may become. -/
structure Limits where
  /-- More literals than this are refused. -/
  most : Int
  /-- More literals than this are worth a warning. -/
  warn : Int
deriving Repr

def Limits.usual : Limits := ⟨20, 12⟩

/-- Warns of a large tree. The warning names its size, which must be short enough for that. -/
def warnOfSize (n : Nat) : Traced Event Unit :=
  if Text.isWritable (completeSize n) then Traced.report (.largeTree n)
  else Traced.fail .numberTooLong

/-- The naive diagram of a formula over an order of names, which by default are its own names. What
    can be refused without evaluating is refused first: too many names, then a name that occurs
    twice, then more assignments than a length can tell. -/
def build [DepthLimits] (f : Formula String) (order : Option (List String)) (limits : Limits) :
    Traced Event Diagram := do
  let order := order.getD f.names
  let n := order.length
  if limits.most < n then Traced.fail (.tooManyLiterals n limits.most)
  if limits.warn < n then warnOfSize n
  let assignments ← Traced.ofExcept (Assignments.ofOrder order)
  let tree ← Traced.ofExcept (Tree.ofAssignments f assignments)
  Traced.report (.treeBuilt n)
  pure (ofTree tree)

end Diagram

end PropDiagram
