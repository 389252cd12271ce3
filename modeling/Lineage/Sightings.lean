import Lineage.LinkTable.Basic
import Lineage.Tally
import Std.Data.ExtTreeMap

/-!
# Sightings

Which documents were seen for which buckets, in any order and across all segments.  Each segment
has a link table of its own, from buckets to document ids, and each of these tables is held to the
memory limit on its own.  A pair counts once however often it is seen.

`Recent` is the small memory beside it: it only knows the document seen last, and folds repeats
that arrive back to back.
-/

namespace Lineage

/-! ## §1 All documents seen -/

/-- The documents seen per bucket. -/
structure Sightings where
  /-- For each segment with an attempt to note a document: buckets and their document ids. -/
  segments : Std.ExtTreeMap SegmentId LinkTable
  limit : Nat
deriving DecidableEq

namespace Sightings

def empty (limit : Nat) : Sightings := ⟨∅, limit⟩

def table (s : Sightings) (segment : SegmentId) : LinkTable :=
  s.segments.getD segment (.empty s.limit)

/-- Carry out a step on the table of a segment, which exists from then on. -/
def onSegment {α : Type} (segment : SegmentId) (step : Step LinkTable α) : Step Sightings α := do
  let s ← get
  step.inside (s.table segment) fun table =>
    { s with segments := s.segments.insert segment table }

/-- Note a document for a bucket; tells whether the pair is a new one. -/
def insert (bucket : Bucket) (doc : Doc) : Step Sightings Bool :=
  onSegment doc.segment (LinkTable.insert bucket doc.id)

/-- Add everything that another memory has seen, segment by segment. -/
def merge (other : Sightings) : Step Sightings Unit :=
  other.segments.toList.forM fun (segment, table) => onSegment segment (LinkTable.merge table)

def isEmpty (s : Sightings) : Bool := s.segments.toList.all fun (_, table) => table.linkCount = 0

def count (s : Sightings) (bucket : Bucket) : Nat :=
  total (s.segments.toList.map fun (_, table) => (table.row bucket).cardinality)

/-- The numbers of documents seen per bucket, for the buckets that have seen any. -/
def tally (s : Sightings) : Tally Bucket :=
  .sum (s.segments.toList.map fun (_, table) => .ofTable table)

end Sightings

/-! ## §2 The document seen last -/

/-- The document seen last and the buckets it was seen for. -/
structure Recent where
  doc : Option Doc
  buckets : List Bucket
deriving DecidableEq, Repr

namespace Recent

def empty : Recent := ⟨none, []⟩

/-- Note a document for a bucket; tells whether the pair is new since the document became the
one seen last. -/
def sight (doc : Doc) (bucket : Bucket) (r : Recent) : Bool × Recent :=
  let buckets := if r.doc = some doc then r.buckets else []
  if bucket ∈ buckets then (false, r) else (true, ⟨some doc, buckets ++ [bucket]⟩)

end Recent

end Lineage
