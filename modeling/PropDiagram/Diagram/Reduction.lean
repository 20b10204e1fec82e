import PropDiagram.Diagram.Reduced

set_option autoImplicit false

/-! # Reduction

Reduction goes through the nodes of a diagram in post-order and gives each an identity. Terminals
have the same identity if they have the same value. Tests have the same identity if their successors
have: the literal is not part of the key, and the first node with a key gives the identity its
literal. With elimination, a test whose successors have one identity gets that identity itself. A new
test is checked: its successors must be entries already.

So an identity stands for a shape: two nodes get the same identity exactly if their unfoldings,
without names, are equal. -/

namespace PropDiagram

/-- Whether two entries get the same identity. -/
def Entry.sameKey : Entry → Entry → Bool
  | .terminal a, .terminal b => a == b
  | .test _ p q, .test _ r s => p == r && q == s
  | _, _ => false

/-- The first successor that is no place of an entry, of this many entries. -/
def Entry.missing? (size : Nat) : Entry → Option Nat
  | .terminal _ => none
  | .test _ low high => if size ≤ low then some low else if size ≤ high then some high else none

theorem Entry.missing?_eq_none_iff {size : Nat} {e : Entry} :
    e.missing? size = none ↔ e.Fits size := by
  cases e with
  | terminal value => exact iff_of_true rfl trivial
  | test name low high =>
    simp only [missing?, Fits]
    split
    · simp
      omega
    · split
      · simp
        omega
      · simp
        omega

/-- The identities met so far, and the identities of the nodes gone through. -/
structure Reduction where
  entries : Array Entry
  identities : Array (Option Nat)

namespace Reduction

def start (size : Nat) : Reduction := ⟨#[], Array.replicate size none⟩

def identity (s : Reduction) (u : Nat) : Option Nat := s.identities[u]?.join

def identify (s : Reduction) (u p : Nat) : Reduction :=
  { s with identities := s.identities.setIfInBounds u (some p) }

/-- Gives a node the identity of the first entry with the same key, or else a new one, for which the
    successors must be there. -/
def intern (s : Reduction) (u : Nat) (e : Entry) : Except Fault Reduction :=
  match s.entries.findIdx? e.sameKey with
  | some p => .ok (s.identify u p)
  | none =>
    match e.missing? s.entries.size with
    | some v => .error (.successorNotFound (some v))
    | none => .ok ({ s with entries := s.entries.push e }.identify u s.entries.size)

/-- Goes through one node of a table, whose successors must have been gone through. -/
def step (t : Table) (eliminate : Bool) (s : Reduction) (u : Nat) : Except Fault Reduction :=
  match t.decision? u with
  | some (name, low, high) =>
    match s.identity low, s.identity high with
    | some p, some q =>
      if eliminate && p == q then .ok (s.identify u p) else s.intern u (.test (some name) p q)
    -- In post-order both successors come before the node.
    | _, _ => .error (.successorNotFound none)
  | none => s.intern u (.terminal (t.value u))

/-- Goes through all nodes of a diagram. -/
def runChecked (d : Diagram) (eliminate : Bool) : Except Fault Reduction :=
  d.nodes.foldlM (step d.table eliminate) (start d.table.size)

/-- What is identified after all nodes of a diagram: nothing if a check fails. -/
def run (d : Diagram) (eliminate : Bool) : Reduction :=
  (runChecked d eliminate).toOption.getD (start d.table.size)

theorem run_of_runChecked {d : Diagram} {eliminate : Bool} {s : Reduction}
    (h : runChecked d eliminate = .ok s) : run d eliminate = s := by
  rw [run, h]
  rfl

/-! ## Identities are places -/

/-- Successors come before their node, and identities are places of entries. -/
structure Sound (s : Reduction) : Prop where
  ordered : Ordered s.entries
  bounded : ∀ u p, s.identity u = some p → p < s.entries.size

theorem sound_start (size : Nat) : (start size).Sound where
  ordered := ordered_empty
  bounded := by
    intro u p h
    simp only [identity, start, Array.getElem?_replicate] at h
    split at h <;> simp at h

theorem identity_identify (s : Reduction) (u p v : Nat) :
    (s.identify u p).identity v
      = if u = v ∧ u < s.identities.size then some p else s.identity v := by
  simp only [identity, identify, Array.getElem?_setIfInBounds]
  by_cases huv : u = v
  · subst huv
    by_cases hu : u < s.identities.size <;> simp [hu]
  · simp [huv]

theorem Sound.identify {s : Reduction} (h : s.Sound) (u : Nat) {p : Nat}
    (hp : p < s.entries.size) : (s.identify u p).Sound where
  ordered := h.ordered
  bounded := by
    intro v q hq
    rw [identity_identify] at hq
    split at hq
    · cases hq
      exact hp
    · exact h.bounded v q hq

theorem Sound.intern {s s' : Reduction} (h : s.Sound) {u : Nat} {e : Entry}
    (hok : s.intern u e = .ok s') : s'.Sound := by
  unfold Reduction.intern at hok
  split at hok
  · next p hp =>
    cases hok
    exact h.identify u (Array.findIdx?_eq_some_iff_getElem.1 hp).1
  · split at hok
    · cases hok
    · next hmissing =>
      cases hok
      refine Sound.identify ⟨h.ordered.push (Entry.missing?_eq_none_iff.1 hmissing), ?_⟩ u (by simp)
      intro v q hq
      have := h.bounded v q hq
      simp only [Array.size_push]
      omega

theorem Sound.step {s s' : Reduction} (h : s.Sound) {t : Table} {eliminate : Bool} {u : Nat}
    (hok : step t eliminate s u = .ok s') : s'.Sound := by
  unfold Reduction.step at hok
  split at hok
  · split at hok
    · next p q hp _ =>
      split at hok
      · cases hok
        exact h.identify u (h.bounded _ _ hp)
      · exact h.intern hok
    · cases hok
  · exact h.intern hok

theorem sound_foldlM {t : Table} {eliminate : Bool} {us : List Nat} {s s' : Reduction}
    (h : s.Sound) (hok : us.foldlM (Reduction.step t eliminate) s = .ok s') : s'.Sound := by
  induction us generalizing s with
  | nil =>
    cases hok
    exact h
  | cons u us ih =>
    rw [List.foldlM_cons] at hok
    cases hstep : Reduction.step t eliminate s u with
    | error e =>
      rw [hstep] at hok
      cases hok
    | ok s₁ =>
      rw [hstep] at hok
      exact ih (h.step hstep) hok

theorem sound_of_runChecked {d : Diagram} {eliminate : Bool} {s : Reduction}
    (h : runChecked d eliminate = .ok s) : s.Sound := sound_foldlM (sound_start _) h

theorem sound_run (d : Diagram) (eliminate : Bool) : (run d eliminate).Sound := by
  cases hrun : runChecked d eliminate with
  | error e =>
    rw [run, hrun]
    exact sound_start _
  | ok s =>
    rw [run_of_runChecked hrun]
    exact sound_of_runChecked hrun

/-- The diagram whose root has the identity of this node. -/
def Sound.reduced {s : Reduction} (h : s.Sound) (root : Nat) : Reduced :=
  ⟨⟨s.entries, h.ordered⟩, (s.identity root).map fun (p : Nat) => (p : Int)⟩

end Reduction

/-- The reduced diagram, with or without tests whose successors coincide. -/
def Diagram.reduce (d : Diagram) (eliminate : Bool) : Reduced :=
  (Reduction.sound_run d eliminate).reduced d.root

/-- The reduced diagram, if no check fails. -/
def Diagram.reduceChecked (d : Diagram) (eliminate : Bool) : Except Fault Reduced :=
  match h : Reduction.runChecked d eliminate with
  | .ok _ => .ok ((Reduction.sound_of_runChecked h).reduced d.root)
  | .error e => .error e

/-- The reduced diagram, reported with the number of nodes gone through. -/
def Diagram.reduceTraced (d : Diagram) (eliminate : Bool) : Traced Event Reduced := do
  let r ← Traced.ofExcept (d.reduceChecked eliminate)
  Traced.report (.reduced d.nodes.length r.size)
  pure r

end PropDiagram
