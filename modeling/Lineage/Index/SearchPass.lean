import Lineage.Index.Bucketing
import Lineage.Index.Opening
import Lineage.Pass

/-!
# Passes over the hits of a query

A search runs its query segment by segment, so the hits of each segment are gathered on their own.
A segment whose gathering fails takes no more hits, and its fault comes out when the segments are
brought together.  Only then are the levels climbed, once for the whole partition.

A report is all or nothing: there is one only if every hit of every segment was taken.
-/

namespace Lineage.Index

/-! ## §1 Search passes and what they leave -/

/-- A pass over the hits of a query. -/
structure SearchPass where
  settings : Settings
  /-- The partition; none if the pass is degraded. -/
  partition : Option Partition
  bucketing : Bucketing

/-- What the hits of one segment leave. -/
structure SegmentYield where
  /-- The facts gathered; none if the pass is degraded. -/
  facts : Option Facts
  handedOn : List Handoff
  fault : Option Fault

structure Report where
  tally : Tally Bucket
  handedOn : List Handoff

/-- Let the faults of a step come out as faults inside a search, which keep only their text. -/
def internally {σ α : Type} (step : Step σ α) : Step σ α := fun s =>
  match step s with
  | .ok answer s => .ok answer s
  | .error fault s => .error (.search (.internal fault.fullText)) s

namespace SearchPass

/-- Start a search pass over a partition that may not open. -/
def start (s : Settings) (opened : Except Fault Partition) (bucketing : Bucketing) :
    Step Journal SearchPass := do
  return ⟨s, ← settle s opened, bucketing⟩

/-- Whether a missing relation was masked. -/
def isDegraded (pass : SearchPass) : Bool := pass.partition.isNone

/-! ## §2 One segment -/

/-- The hits of a segment, once for each of their buckets. -/
def hitsOf (pass : SearchPass) (segment : SegmentId) (ids : List UInt32) : List (Doc × Bucket) :=
  ids.flatMap fun id =>
    (pass.bucketing.buckets ⟨segment, id⟩).map fun bucket => (⟨segment, id⟩, bucket)

def gather (pass : SearchPass) (p : Partition) (hits : List (Doc × Bucket)) :
    Step (Gatherer × Journal) Unit :=
  hits.forM fun (doc, bucket) => Gatherer.take pass.settings p doc bucket

/-- Gather the hits of a segment.  The pairs that they hand on are kept with the segment, and a
fault on the way does not fail the step. -/
def takeSegment (pass : SearchPass) (segment : SegmentId) (ids : List UInt32) :
    Step Journal SegmentYield := do
  internally (Step.ofExcept (pass.bucketing.ready segment))
  match pass.partition with
  | none => return ⟨none, [], none⟩
  | some p =>
    let g ← internally (Step.ofExcept (Gatherer.start pass.settings p))
    let outer ← get
    let gathering : Step (Gatherer × Journal) (Except Fault Unit × Gatherer × Journal) := do
      let outcome ← (pass.gather p (pass.hitsOf segment ids)).attempt
      return (outcome, ← get)
    let (outcome, g, inner) ← gathering.inside (g, { outer with sink := .unlimited })
      fun (_, j) => { j with sink := outer.sink }
    let facts ← g.close
    let fault := match outcome with
      | .ok () => none
      | .error fault => some fault
    return ⟨some facts, inner.sink.taken.toList, fault⟩

/-! ## §3 All segments -/

/-- Add what a segment leaves to what those before it left. -/
def addYield (y : SegmentYield) : Step (Option Facts × List Handoff) Unit := do
  if let some fault := y.fault then
    Step.fail fault
  -- pairs are kept in the order of the segments
  let (facts, handedOn) ← get
  let handedOn := handedOn ++ y.handedOn
  match facts, y.facts with
  | some mine, some theirs => (Facts.merge theirs).inside mine fun mine => (some mine, handedOn)
  | some mine, none => set (some mine, handedOn)
  | none, theirs => set (theirs, handedOn)

/-- Bring the segments together, in the order given, and climb the levels. -/
def bringTogether (pass : SearchPass) (yields : List SegmentYield) : Step Journal Report :=
  match pass.partition with
  | none => pure ⟨.empty, []⟩
  | some p => do
    let together : Step (Option Facts × List Handoff) (Option Facts × List Handoff) := do
      yields.forM addYield
      get
    match ← Step.ofExcept (together.result (none, [])) with
    | (none, handedOn) => return ⟨.empty, handedOn⟩
    | (some facts, handedOn) =>
      let outer ← get
      -- what the last transition hands on comes after what the segments handed on
      let inner := { outer with sink := { Sink.unlimited with taken := handedOn.toArray } }
      let conclusion : Step Journal Report := do
        let tally ← facts.tally pass.settings p
        return ⟨tally, (← get).sink.taken.toList⟩
      conclusion.inside inner fun j => { j with sink := outer.sink }

/-- Take the matched documents of each segment, in the order given, and report on them. -/
def runOver (pass : SearchPass) (matched : List (SegmentId × List UInt32)) :
    Step Journal Report := do
  let yields ← matched.mapM fun (segment, ids) => pass.takeSegment segment ids
  internally (pass.bringTogether yields)

/-- Run a query over a snapshot and report on its hits. -/
def run (pass : SearchPass) (s : Snapshot) (query : Query) : Step Journal Report := do
  let wanted ← Step.ofExcept (query.select s)
  pass.runOver (s.numbered.map fun (i, segment) => (i, segment.liveIds wanted))

end SearchPass

end Lineage.Index
