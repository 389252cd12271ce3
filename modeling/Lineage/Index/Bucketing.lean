import Lineage.Index.TermNumbering

/-!
# Assigning hits to buckets

Which buckets a hit counts for.  All hits may fall into one bucket, into the buckets of the terms
they hold in a column, or into buckets that are listed for them.
-/

namespace Lineage.Index

/-- An assignment of hits to buckets. -/
structure Bucketing where
  /-- Whether the hits of a segment can be assigned. -/
  ready : SegmentId → Except Fault Unit
  buckets : Doc → List Bucket
  /-- The term that a bucket stands for, if it stands for one. -/
  key? : Bucket → Option String

namespace Bucketing

def single : Bucketing := ⟨fun _ => .ok (), fun _ => [0], fun _ => none⟩

/-- A hit falls into one bucket for each term it holds; buckets are the terms' ordinals. -/
def ofTerms (numbering : TermNumbering) : Bucketing :=
  ⟨fun _ => .ok (), fun doc => ascending (numbering.ordinalsOf doc), numbering.term?⟩

/-- Hits fall into the buckets listed for them; some segments cannot be assigned. -/
def listed (buckets : List (Doc × List Bucket)) (unavailable : List SegmentId) : Bucketing where
  ready segment :=
    if segment ∈ unavailable then .error (.ofCause (.noBuckets segment)) else .ok ()
  buckets doc :=
    (((buckets.filter fun entry => entry.1 = doc).getLast?).map Prod.snd).getD []
  key? _ := none

end Bucketing

end Lineage.Index
