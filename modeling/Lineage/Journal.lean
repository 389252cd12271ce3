import Lineage.Sink
import Lineage.Statistics

/-!
# Journals

The record of a pass: what it counted, what it handed on, and what it asked of its partition.
A journal outlives the steps that fail.
-/

namespace Lineage

/-- A question that a pass puts to its partition. -/
inductive Request where
  /-- The join keys of a document at a level. -/
  | keys (level : Level) (doc : Doc)
  | scan (level : Level)
deriving DecidableEq, Repr

/-- The record of a pass. -/
structure Journal where
  statistics : Statistics
  sink : Sink
  /-- The questions put to the partition, oldest first. -/
  requests : Array Request

namespace Journal

/-- A journal with nothing in it, for a sink. -/
def start (sink : Sink) : Journal := ⟨.zero, sink, #[]⟩

def ask (request : Request) : Step Journal Unit :=
  modify fun j => { j with requests := j.requests.push request }

def count (change : Statistics → Statistics) : Step Journal Unit :=
  modify fun j => { j with statistics := change j.statistics }

def handOn (pair : Handoff) : Step Journal Unit := do
  let j ← get
  (Sink.offer pair).inside j.sink fun sink => { j with sink }

end Journal

end Lineage
