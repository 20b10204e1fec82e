import PropDiagram.Fault

set_option autoImplicit false

/-! # Traced computations

A computation that may fail and that reports as it goes. What it reported before a fault stays
reported: the trace belongs to the outcome, good or bad. Statements are made about the outcome, which
turns sequencing of computations into sequencing of results. -/

namespace PropDiagram

/-- An outcome and the reports made on the way to it, in order. -/
structure Traced (ω : Type) (α : Type) where
  outcome : Except Fault α
  trace : List ω

namespace Traced

variable {ω χ α β : Type}

protected def pure (a : α) : Traced ω α := ⟨.ok a, []⟩

/-- Goes on with the result of `x`, unless `x` failed. -/
protected def bind (x : Traced ω α) (f : α → Traced ω β) : Traced ω β :=
  match x.outcome with
  | .ok a => ⟨(f a).outcome, x.trace ++ (f a).trace⟩
  | .error e => ⟨.error e, x.trace⟩

instance : Monad (Traced ω) where
  pure := Traced.pure
  bind := Traced.bind

def report (event : ω) : Traced ω Unit := ⟨.ok (), [event]⟩

def fail (fault : Fault) : Traced ω α := ⟨.error fault, []⟩

/-- An outcome without reports. -/
def ofExcept (x : Except Fault α) : Traced ω α := ⟨x, []⟩

/-- The computation as one that cannot fail: its outcome becomes its result. -/
def attempt (x : Traced ω α) : Traced ω (Except Fault α) := ⟨.ok x.outcome, x.trace⟩

/-- The computation with every report turned into another one. -/
def mapTrace (f : ω → χ) (x : Traced ω α) : Traced χ α := ⟨x.outcome, x.trace.map f⟩

/-! ## Outcomes of compositions -/

@[simp] theorem outcome_pure (a : α) : (pure a : Traced ω α).outcome = .ok a := rfl

@[simp] theorem outcome_bind (x : Traced ω α) (f : α → Traced ω β) :
    (x >>= f).outcome = x.outcome.bind fun a => (f a).outcome := by
  change (Traced.bind x f).outcome = _
  unfold Traced.bind
  cases x.outcome <;> rfl

@[simp] theorem outcome_report (event : ω) : (report event).outcome = .ok () := rfl

@[simp] theorem outcome_fail (e : Fault) : (fail e : Traced ω α).outcome = .error e := rfl

@[simp] theorem outcome_ofExcept (x : Except Fault α) :
    (ofExcept x : Traced ω α).outcome = x := rfl

end Traced

end PropDiagram
