import Lineage.Index.FilterScan

/-!
# Main documents

Nested documents are stored directly before the document they belong to.  A hit therefore belongs
to the first live main document at or after it in its segment.
-/

namespace Lineage.Index

/-- The main documents of an index, one word set per segment. -/
structure MainDocuments where
  segments : List WordSet
deriving DecidableEq, Repr

namespace MainDocuments

/-- The live documents that a filter selects. -/
def ofFilter (s : Snapshot) (filter : FieldTerm) : Except Fault MainDocuments := do
  return ⟨s.liveSets (← s.select filter)⟩

def cardinality (m : MainDocuments) : Nat := total (m.segments.map WordSet.cardinality)

def mainOf (m : MainDocuments) (hit : Doc) : Option Doc := do
  let ids ← m.segments[hit.segment.toNat]?
  let id ← ids.next? hit.id
  return ⟨hit.segment, id⟩

end MainDocuments

end Lineage.Index
