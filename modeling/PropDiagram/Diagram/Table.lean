import PropDiagram.Diagram.Tree

set_option autoImplicit false

/-! # Tables of nodes

A diagram is a graph without cycles, so its nodes can be listed in a table in which every test leads
to nodes listed before it. A node is known by its place in the table, and two tests share a node by
naming the same place. Unfolding a node follows the tests down to the terminals and gives a tree; in
the unfolding nothing is shared.

That successors come earlier makes every walk down the table end: the functions here recurse on the
place of the node. -/

namespace PropDiagram

/-! ## Entries -/

/-- A node of a diagram. -/
inductive Entry where
  | terminal (value : Option Bool)
  | test (name : Option String) (low high : Nat)
deriving DecidableEq, Repr

namespace Entry

/-- Whether the entry may stand at place `u`: its successors come earlier. -/
def Fits (u : Nat) : Entry → Prop
  | terminal _ => True
  | test _ low high => low < u ∧ high < u

instance (u : Nat) (e : Entry) : Decidable (e.Fits u) :=
  match e with
  | terminal _ => .isTrue trivial
  | test _ low high => inferInstanceAs (Decidable (low < u ∧ high < u))

def isTerminal : Entry → Bool
  | terminal _ => true
  | test _ _ _ => false

end Entry

/-- Every entry leads only to entries before it. -/
def Ordered (entries : Array Entry) : Prop :=
  ∀ (u : Nat) (e : Entry), entries[u]? = some e → e.Fits u

theorem ordered_empty : Ordered #[] := by
  intro u e h
  simp at h

theorem Ordered.push {entries : Array Entry} (h : Ordered entries) {e : Entry}
    (he : e.Fits entries.size) : Ordered (entries.push e) := by
  intro u x hu
  rw [Array.getElem?_push] at hu
  split at hu
  · next hsize =>
    cases hu
    exact hsize ▸ he
  · exact h u x hu

/-! ## Tables -/

/-- Nodes in an order in which every test comes after its successors. -/
structure Table where
  entries : Array Entry
  ordered : Ordered entries

namespace Table

instance : DecidableEq Table := fun s t =>
  if h : s.entries = t.entries then .isTrue (by cases s; cases t; cases h; rfl)
  else .isFalse (fun e => h (e ▸ rfl))

def empty : Table := ⟨#[], ordered_empty⟩

def size (t : Table) : Nat := t.entries.size

def get (t : Table) (p : Fin t.size) : Entry :=
  have h : p.val < t.entries.size := p.isLt
  t.entries[p.val]

/-- Adds an entry whose successors are there. -/
def push (t : Table) (e : Entry) (h : e.Fits t.size) : Table := ⟨t.entries.push e, t.ordered.push h⟩

/-- The table of these entries in order, if each fits its place. -/
def ofList? (entries : List Entry) : Option Table :=
  entries.foldlM (fun t e => if h : e.Fits t.size then some (t.push e h) else none) empty

/-- The test at a place: its literal and its successors, which come earlier. -/
def test? (t : Table) (u : Nat) : Option (Option String × Fin u × Fin u) :=
  match h : t.entries[u]? with
  | some (.test name low high) =>
    have fits := t.ordered u _ h
    some (name, ⟨low, fits.1⟩, ⟨high, fits.2⟩)
  | _ => none

/-- The test at a place, if it names a literal. A test of no literal decides nothing and counts as
    a terminal without truth value. -/
def decision? (t : Table) (u : Nat) : Option (String × Fin u × Fin u) :=
  match t.test? u with
  | some (some name, low, high) => some (name, low, high)
  | _ => none

/-- The truth value at a place; none for a test. -/
def value (t : Table) (u : Nat) : Option Bool :=
  match t.entries[u]? with
  | some (.terminal v) => v
  | _ => none

/-! ## Walks -/

/-- The tree that a node unfolds to. -/
def unfold (t : Table) (u : Nat) : Tree :=
  match t.test? u with
  | some (name, low, high) => .node name (t.unfold low) (t.unfold high)
  | none => .leaf (t.value u)
termination_by u
decreasing_by
  · exact low.isLt
  · exact high.isLt

/-- The truth value reached from a node when the literals have these values. Only the literals on
    the way are looked up. -/
def follow (t : Table) (values : Valuation) (u : Nat) : Except Fault (Option Bool) :=
  match t.test? u with
  | some (name, low, high) =>
    match name.bind values with
    | some true => t.follow values high
    | some false => t.follow values low
    | none => .error (.unbound name)
  | none => .ok (t.value u)
termination_by u
decreasing_by
  · exact high.isLt
  · exact low.isLt

/-! ## Post-order -/

/-- The nodes visited so far: which ones, and in which order they were finished. -/
structure Visit where
  marked : Array Bool
  finished : Array Nat

def Visit.none (size : Nat) : Visit := ⟨Array.replicate size false, #[]⟩

def Visit.isMarked (v : Visit) (u : Nat) : Bool := v.marked[u]?.getD false

def Visit.finish (v : Visit) (u : Nat) : Visit :=
  ⟨v.marked.setIfInBounds u true, v.finished.push u⟩

/-- Visits the nodes reachable from `u` that were not visited before: those of the low branch, those
    of the high branch, then `u` itself. -/
def visit (t : Table) (u : Nat) (v : Visit) : Visit :=
  if v.isMarked u then v
  else match t.decision? u with
    | some (_, low, high) => (t.visit high (t.visit low v)).finish u
    | none => v.finish u
termination_by u
decreasing_by
  · exact low.isLt
  · exact high.isLt

/-- The nodes reachable from `u`, each once, every node after its successors. -/
def postorder (t : Table) (u : Nat) : List Nat :=
  (t.visit u (Visit.none t.size)).finished.toList

end Table

end PropDiagram
