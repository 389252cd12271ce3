/-!
# Addresses

The numbers that a partition is described with.  Every identifier is a 32-bit word: buckets are
handed out by the caller, ordinals number the join-key values of one level, and a document is
addressed by the segment that stores it together with its number inside that segment.
-/

namespace Lineage

/-- A group of hits that is counted on its own. -/
abbrev Bucket := UInt32

/-- The dense, partition-wide number of a join-key value. -/
abbrev Ordinal := UInt32

/-- The position of a segment in its partition. -/
abbrev SegmentId := UInt32

/-- A distance from the hits along the chain of joins: the hits stand at level 0, the ancestors
reached by `n` joins at level `n`. -/
abbrev Level := Nat

/-- A document of a partition. -/
structure Doc where
  segment : SegmentId
  id : UInt32
deriving DecidableEq, Repr, Inhabited

/-- A document passed on downstream on behalf of a bucket. -/
structure Handoff where
  bucket : Bucket
  doc : Doc
deriving DecidableEq, Repr, Inhabited

end Lineage
