import Lineage.Ascent
import Lineage.Gatherer

/-!
# Passes

One run over a partition: from settings and a partition that may not open, over the hits, to a
number of distinct ancestors per bucket.  A pass whose relations are missing fails at its start or,
if its settings say so, runs degraded: it takes all hits and counts nothing.
-/

namespace Lineage

/-! ## §1 Start and end, shared by all drivers of a pass -/

/-- Settle whether a pass can run: the settings must be valid, and the partition must open and hold
what they need.  A configuration fault of the partition, and only that, is masked if the settings
are resilient; there is then no partition to run over. -/
def settle (s : Settings) (opened : Except Fault Partition) : Step Journal (Option Partition) := do
  Step.ofExcept s.validate
  -- what follows can be masked, a fault of the settings cannot
  let checked : Except Fault Partition := do
    let p ← opened
    p.check s
    return p
  match checked with
  | .ok p => return some p
  | .error fault =>
    if s.resilient ∧ fault.isConfiguration then
      Journal.count (·.addDegraded)
      return none
    else
      Step.fail fault

/-- The numbers that follow from the level-0 facts of all hits. -/
def Facts.tally (s : Settings) (p : Partition) : Facts → Step Journal (Tally Bucket)
  | .documents seen => pure seen.tally
  | .links table =>
    if table.isEmpty then
      pure .empty
    else do
      let top ← Ascent.run s p table
      return .ofTable top

/-! ## §2 A pass with a single gatherer -/

/-- A pass under way. -/
structure Pass where
  settings : Settings
  /-- The partition and the gatherer of its hits; none if the pass is degraded. -/
  active : Option (Partition × Gatherer)

namespace Pass

/-- Start a pass over a partition that may not open. -/
def start (s : Settings) (opened : Except Fault Partition) : Step Journal Pass := do
  match ← settle s opened with
  | none => return ⟨s, none⟩
  | some p =>
    let g ← Step.ofExcept (Gatherer.start s p)
    return ⟨s, some (p, g)⟩

/-- Whether a missing relation was masked. -/
def isDegraded (pass : Pass) : Bool := pass.active.isNone

def take (hit : Doc) (bucket : Bucket) : Step (Pass × Journal) Unit := do
  let (pass, j) ← get
  match pass.active with
  | none => return ()
  | some (p, g) =>
    (Gatherer.take pass.settings p hit bucket).inside (g, j) fun (g, j) =>
      ({ pass with active := some (p, g) }, j)

/-- End a pass: the number of distinct ancestors per bucket. -/
def close (pass : Pass) : Step Journal (Tally Bucket) :=
  match pass.active with
  | none => pure .empty
  | some (p, g) => do
    let facts ← g.close
    facts.tally pass.settings p

end Pass

end Lineage
