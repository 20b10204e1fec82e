import PropDiagram.Assignment.Basic
import PropDiagram.Assignment.Slice
import PropDiagram.Powers

set_option autoImplicit false

/-! # All assignments to an order of names

The assignments to `n` names form a sequence of length `2 ^ n` whose items are computed when they
are asked for. A length of `2 ^ 63` or more cannot be told, and with it whatever depends on the
length. -/

namespace PropDiagram

/-- All assignments to names that differ from each other, in the order of their numbers. -/
structure Assignments where
  order : List String
  nodup : order.Nodup

namespace Assignments

open Powers

/-- The assignments to these names, unless a name occurs twice. -/
def ofOrder (order : List String) : Except Fault Assignments :=
  if h : order.Nodup then .ok ⟨order, h⟩ else .error (.duplicateNames order)

/-- The number of binary digits that a length may have. -/
def lengthDigits : Nat := 63

/-- How many assignments there are, if the number can be told. -/
def length (a : Assignments) : Except Fault Nat :=
  if a.order.length < lengthDigits then .ok (2 ^ a.order.length)
  else .error .countlessAssignments

def text (a : Assignments) : String :=
  "Assignments(" ++ Text.list (a.order.map Text.quoted) ++ ")"

/-! ## Items by number -/

/-- The assignment with the number `i`; a negative number counts from the end. -/
def get (a : Assignments) (i : Int) : Except Fault Assignment := do
  let n ← a.length
  let j := if i < 0 then i + n else i
  if 0 ≤ j ∧ j < n then pure (Assignment.numbered a.order j.toNat)
  else throw (.noSuchAssignment j)

/-- The assignment whose number is given by a value of any type. -/
def getDatum (a : Assignments) (d : Datum) : Except Fault Assignment :=
  match d.index? with
  | some i => a.get i
  | none => .error (.notAnIndex d.typeName)

def slice (a : Assignments) (s : Slice) : Except Fault (List Assignment) := do
  let n ← a.length
  let positions ← s.positions n
  pure (positions.map (Assignment.numbered a.order))

/-- The assignments that a slice picks whose parts are given by values of any type. The length is
    judged before the slice. -/
def sliceData (a : Assignments) (start stop step : Datum) : Except Fault (List Assignment) := do
  let _ ← a.length
  let s ← Slice.ofData start stop step
  a.slice s

/-- The first `k` assignments. None of them are there whatever the length. -/
def firsts (a : Assignments) (k : Nat) : Except Fault (List Assignment) :=
  if k = 0 then .ok []
  else do
    let n ← a.length
    pure ((List.range (min k n)).map (Assignment.numbered a.order))

/-- The last `k` assignments, from the last one backwards. None of them are there whatever the
    length. -/
def lasts (a : Assignments) (k : Nat) : Except Fault (List Assignment) :=
  if k = 0 then .ok []
  else do
    let n ← a.length
    pure ((List.range (min k n)).map fun j => Assignment.numbered a.order (n - 1 - j))

/-! ## Searching -/

/-- Whether some assignment equals the value. -/
def contains (a : Assignments) (d : Datum) : Except Fault Bool := do
  let _ ← a.length
  pure (Assignment.numberOf? a.order d).isSome

/-- How many assignments equal the value: at most one does. -/
def count (a : Assignments) (d : Datum) : Except Fault Nat := do
  let _ ← a.length
  pure (if (Assignment.numberOf? a.order d).isSome then 1 else 0)

/-- A bound of a search: a negative one counts from the end. -/
def searchBound (a : Assignments) (i : Int) : Except Fault Int :=
  if i < 0 then do
    let n ← a.length
    pure (i + n)
  else pure i

/-- Whether the number lies before the bound; all do if there is none. -/
def isBefore (bound : Option Int) (i : Int) : Bool :=
  match bound with
  | some b => i < b
  | none => true

/-- The number of the assignment that equals the value, searched for from `start` on and before
    `stop`. An empty range is searched without asking for the length. -/
def indexOf (a : Assignments) (d : Datum) (start : Int) (stop : Option Int) :
    Except Fault Nat := do
  let start ← a.searchBound start
  let first := max start 0
  let stop ← stop.mapM a.searchBound
  -- The length matters only once an item is looked at.
  if !isBefore stop first then throw .assignmentNotFound
  let _ ← a.length
  match Assignment.numberOf? a.order d with
  | some i => if first ≤ i && isBefore stop i then pure i else throw .assignmentNotFound
  | none => throw .assignmentNotFound

/-! ## One after the other -/

/-- What is left of the assignments to some names when they are taken in order. -/
structure Supply where
  order : List String
  next : Nat
  stop : Nat
deriving DecidableEq, Repr

/-- All assignments, none of which is taken yet. -/
def supply (a : Assignments) : Except Fault Supply := do
  let n ← a.length
  pure ⟨a.order, 0, n⟩

/-- The next assignment and what is left after it; nothing when none is left. -/
def Supply.take? : Supply → Option (Assignment × Supply)
  | ⟨order, next, stop⟩ =>
    if next < stop then some (Assignment.numbered order next, ⟨order, next + 1, stop⟩) else none

/-! ## One result per assignment -/

/-- Goes through `remaining` assignments from number `i` on, with the results so far in reverse. -/
def mapFrom {β : Type} (order : List String) (f : Assignment → Except Fault β) :
    (remaining i : Nat) → (done : List β) → Except Fault (List β)
  | 0, _, done => .ok done.reverse
  | remaining + 1, i, done =>
    match f (Assignment.numbered order i) with
    | .ok b => mapFrom order f remaining (i + 1) (b :: done)
    | .error e => .error e

/-- The results for all assignments in order, or the first fault. -/
def mapAll {β : Type} (a : Assignments) (f : Assignment → Except Fault β) :
    Except Fault (List β) := do
  let n ← a.length
  mapFrom a.order f n 0 []

end Assignments

/-! ## Truth tables -/

/-- The formula's value under every assignment to the names of the order, which by default are its
    own names. -/
def Formula.truthTable [DepthLimits] (f : Formula String) (order : Option (List String)) :
    Except Fault (List (Assignment × Bool)) := do
  let assignments ← Assignments.ofOrder (order.getD f.names)
  assignments.mapAll fun a => do
    let b ← f.evaluate a.valuation
    pure (a, b)

end PropDiagram
