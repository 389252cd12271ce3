import Lineage.Settings.Basic
import Lineage.Step

/-!
# Partitions

What a pass knows of the documents it runs over.  A partition tells the join keys that a document
carries at a level, the ancestor documents of a level, and, where hits can be nested, the main
document of a hit.  All of it is plain data: a question asked twice has the same answer.
-/

namespace Lineage

/-! ## §1 Visits -/

/-- The documents met in a walk over a partition, and how the walk ended. -/
structure Visits where
  /-- The documents in the order of the walk; one may come more than once. -/
  docs : List Doc
  /-- Whether the walk came to its end after these documents, or else why it broke off. -/
  ending : Except Fault Unit

namespace Visits

variable {σ : Type}

/-- Do something with each document.  The first fault ends the walk, be it one of the visitor or,
after the last document, one of the walk itself. -/
def forEach (visits : Visits) (visit : Doc → Step σ Unit) : Step σ Unit := do
  visits.docs.forM visit
  Step.ofExcept visits.ending

/-- The documents without those that repeat the one just before. -/
def dropRepeats : List Doc → List Doc
  | [] => []
  | [doc] => [doc]
  | doc :: next :: docs =>
    if doc = next then dropRepeats (next :: docs) else doc :: dropRepeats (next :: docs)

/-- The same walk, passing over immediate repeats. -/
def withoutRepeats (visits : Visits) : Visits := { visits with docs := dropRepeats visits.docs }

end Visits

/-! ## §2 Partitions -/

/-- What a pass knows of its documents. -/
structure Partition where
  /-- The ordinals that a document carries at a level, in any order and with repeats. -/
  keys : Level → Doc → Except Fault (List Ordinal)
  /-- Whether the ancestors of a level can be told. -/
  checkLevel : Level → Except Fault Unit
  scan : Level → Visits
  /-- If hits can be nested: the main document of a hit, if it has one. -/
  mainDocument : Option (Doc → Option Doc)

namespace Partition

/-- Ask for a number of levels from `level` on. -/
def checkLevels (p : Partition) : Nat → Level → Except Fault Unit
  | 0, _ => .ok ()
  | n + 1, level => do
    p.checkLevel level
    p.checkLevels n (level + 1)

/-- Check that everything is there that the settings need. -/
def check (p : Partition) (s : Settings) : Except Fault Unit := do
  p.checkLevels s.levels 1
  if s.nested ∧ p.mainDocument.isNone then
    throw (.configuration .noMainDocuments)

/-- The document whose keys a hit counts under: the hit itself or, if hits are nested, its main
document. -/
def target (p : Partition) (s : Settings) (hit : Doc) : Option Doc :=
  if s.nested then p.mainDocument.bind (· hit) else some hit

end Partition

end Lineage
