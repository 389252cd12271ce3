import Lineage.Index.Snapshot
import Lineage.Partition.Basic
import Lineage.WordSet.Basic

/-!
# Scanning for ancestors

The ancestors of each level are the live documents that its filter selects, segment by segment and
ascending inside a segment.  Under the caching strategy the first scan of a level keeps its
documents as one word set per segment, and later scans read those; under the other strategy every
scan looks at the documents anew.
-/

namespace Lineage.Index

/-! ## §1 Live documents with a property -/

namespace Snapshot

/-- The live documents with some property, segment by segment. -/
def liveDocs (s : Snapshot) (wanted : Stored → Bool) : List Doc :=
  s.numbered.flatMap fun (i, segment) => (segment.liveIds wanted).map fun id => ⟨i, id⟩

/-- The live documents with some property, as one word set per segment. -/
def liveSets (s : Snapshot) (wanted : Stored → Bool) : List WordSet :=
  s.segments.map fun segment => .ofList (segment.liveIds wanted)

/-- The documents of word sets, one per segment. -/
def docsOfSets (sets : List WordSet) : List Doc :=
  sets.zipIdx.flatMap fun (ids, i) => ids.toList.map fun id => ⟨.ofNat i, id⟩

end Snapshot

/-! ## §2 Scans -/

/-- The filters of the levels from 1 on, with what scans have kept. -/
structure FilterScan where
  snapshot : Snapshot
  strategy : ScanStrategy
  /-- For each level: the property its filter asks for, and the documents kept for it. -/
  levels : List ((Stored → Bool) × Option (List WordSet))

namespace FilterScan

/-- Prepare the filters of the levels from 1 on. -/
def ofFilters (s : Snapshot) (filters : List FieldTerm) (strategy : ScanStrategy) :
    Except Fault FilterScan := do
  let selected ← filters.mapM s.select
  return ⟨s, strategy, selected.map fun wanted => (wanted, none)⟩

def level (scan : FilterScan) (level : Level) :
    Except Fault ((Stored → Bool) × Option (List WordSet)) :=
  match level with
  | 0 => .error (.configuration (.noAncestorFilter 0))
  | i + 1 =>
    match scan.levels[i]? with
    | some filter => .ok filter
    | none => .error (.configuration (.noAncestorFilter (i + 1)))

def checkLevel (scan : FilterScan) (level : Level) : Except Fault Unit := do
  discard (scan.level level)

/-- Walk over the ancestors of a level; the second part is the scan with what was kept. -/
def visit (scan : FilterScan) (level : Level) : Visits × FilterScan :=
  match scan.level level with
  | .error fault => (⟨[], .error fault⟩, scan)
  | .ok (wanted, kept) =>
    match scan.strategy with
    | .scan => (⟨scan.snapshot.liveDocs wanted, .ok ()⟩, scan)
    | .cached =>
      -- the first scan of a level keeps its documents, and later ones find them there
      let sets := kept.getD (scan.snapshot.liveSets wanted)
      (⟨Snapshot.docsOfSets sets, .ok ()⟩,
        { scan with levels := scan.levels.set (level - 1) (wanted, some sets) })

end FilterScan

end Lineage.Index
