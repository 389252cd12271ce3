import Lineage.Fault

/-!
# Steps

A step reads and changes a state and either answers or fails.  What it changed before it failed
stays changed: callers may go on after a fault, and what they then see is the state that the fault
left behind.
-/

namespace Lineage

/-- A change of a state of type `σ` with an answer of type `α`, or a fault. -/
abbrev Step (σ α : Type) := EStateM Fault σ α

namespace Step

variable {σ τ α : Type}

/-- The answer or the fault of a step from a state. -/
def result (step : Step σ α) (s : σ) : Except Fault α :=
  match step s with
  | .ok answer _ => .ok answer
  | .error fault _ => .error fault

/-- The state that a step leaves, whether it answers or fails. -/
def after (step : Step σ α) (s : σ) : σ :=
  match step s with
  | .ok _ s => s
  | .error _ s => s

/-- Fail and leave the state as it is. -/
def fail (fault : Fault) : Step σ α := throw fault

/-- Take over an answer or a fault that does not depend on the state. -/
def ofExcept : Except Fault α → Step σ α
  | .ok answer => pure answer
  | .error fault => fail fault

/-- Carry out a step and go on after its fault, if it has one. -/
def attempt (step : Step σ α) : Step σ (Except Fault α) := fun s =>
  match step s with
  | .ok answer s => .ok (.ok answer) s
  | .error fault s => .ok (.error fault) s

/-- Carry out a step on a part of a larger state; `put` puts the changed part back. -/
def inside (part : σ) (put : σ → τ) (step : Step σ α) : Step τ α := fun _ =>
  match step part with
  | .ok answer part => .ok answer (put part)
  | .error fault part => .error fault (put part)

end Step

end Lineage
