import Lineage.Step

/-!
# Sinks

Where the pairs of a bucket and a document go that a pass hands on.  A sink decides on every pair
it is offered and may refuse it; what it decides can depend on everything it was offered before.
-/

namespace Lineage

/-- A receiver of handed-on pairs, with what it was offered and what it took. -/
structure Sink where
  /-- The fault with which a pair is refused, if it is, given all earlier offers. -/
  verdict : Array Handoff → Handoff → Option Fault
  /-- All pairs offered so far, oldest first. -/
  offered : Array Handoff
  /-- The pairs taken so far, oldest first. -/
  taken : Array Handoff

namespace Sink

/-- A sink that has been offered nothing and takes everything. -/
def unlimited : Sink := ⟨fun _ _ => none, #[], #[]⟩

/-- A sink that takes `n` pairs and refuses all later ones. -/
def limited (n : Nat) : Sink :=
  ⟨fun offered _ => if offered.size < n then none else some (.ofCause .sinkFull), #[], #[]⟩

def offer (pair : Handoff) : Step Sink Unit := do
  let sink ← get
  match sink.verdict sink.offered pair with
  | none => set { sink with offered := sink.offered.push pair, taken := sink.taken.push pair }
  | some fault =>
    set { sink with offered := sink.offered.push pair }
    Step.fail fault

end Sink

end Lineage
