/-!
# Statistics

Counters over the passes of a process.  They are 64-bit words and wrap around.
-/

namespace Lineage

/-- What passes have done since the counters were last reset. -/
structure Statistics where
  /-- Hits presented, one per document and bucket. -/
  collected : UInt64
  /-- Pairs that a sink took. -/
  forwarded : UInt64
  /-- Level transitions that came to their end. -/
  levels : UInt64
  /-- Ancestor documents visited by those transitions. -/
  scanned : UInt64
  /-- Passes that answer with nothing because a relation is missing. -/
  degraded : UInt64
deriving DecidableEq, Repr, Inhabited

namespace Statistics

def zero : Statistics := ⟨0, 0, 0, 0, 0⟩

def addCollected (n : UInt64) (s : Statistics) : Statistics :=
  { s with collected := s.collected + n }

def addForwarded (n : UInt64) (s : Statistics) : Statistics :=
  { s with forwarded := s.forwarded + n }

/-- Count one level transition with the documents it visited. -/
def addLevel (scanned : UInt64) (s : Statistics) : Statistics :=
  { s with levels := s.levels + 1, scanned := s.scanned + scanned }

def addDegraded (s : Statistics) : Statistics := { s with degraded := s.degraded + 1 }

def summary (s : Statistics) : String :=
  s!"Hits: {s.collected} collected, {s.forwarded} forwarded; {s.levels} levels propagated over " ++
    s!"{s.scanned} ancestor docs; {s.degraded} degraded"

end Statistics

end Lineage
