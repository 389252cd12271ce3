import Lineage.Ascending
import Lineage.Journal
import Lineage.LinkTable.Converse
import Lineage.Partition.Basic

/-!
# Climbing the levels

From the level-0 ordinals that buckets reach to the ordinals they reach at the last level.  The
table of level 0 is turned around once, from ordinals to buckets.  Each level transition then walks
over the ancestors of the next level: an ancestor that carries a reached ordinal at the level below
passes the buckets of that ordinal to its own ordinals.  The last table is turned back.

Where ancestors are handed on, the last transition writes its links one by one, and a document is
handed on for a bucket when it brings the bucket a new link.  A level that nothing reaches ends the
climb, since nothing is reached above it.
-/

namespace Lineage

/-! ## §1 One level transition -/

/-- A level transition under way. -/
structure Transition where
  /-- The ancestors' ordinals reached so far, with the buckets that reach them. -/
  reached : LinkTable
  /-- The pairs handed on so far; they are only counted when the transition comes to its end. -/
  handedOn : UInt64
  journal : Journal

namespace Transition

def onReached {α : Type} (step : Step LinkTable α) : Step Transition α := do
  let t ← get
  step.inside t.reached fun reached => { t with reached }

def onJournal {α : Type} (step : Step Journal α) : Step Transition α := do
  let t ← get
  step.inside t.journal fun journal => { t with journal }

def keysOf (p : Partition) (level : Level) (doc : Doc) : Step Transition (List Ordinal) := do
  onJournal (Journal.ask (.keys level doc))
  Step.ofExcept (p.keys level doc)

/-- Write links one by one and hand on their document for every bucket that gains a new link,
once per bucket. -/
def markAndHandOn (doc : Doc) : List (Ordinal × Bucket) → List Bucket → Step Transition Unit
  | [], _ => pure ()
  | (ordinal, bucket) :: links, served => do
    let fresh ← onReached (LinkTable.insert ordinal bucket)
    if fresh ∧ bucket ∉ served then
      onJournal (Journal.handOn ⟨bucket, doc⟩)
      -- a fault of the sink ends the visit before the pair is counted
      modify fun t => { t with handedOn := t.handedOn + 1 }
      markAndHandOn doc links (bucket :: served)
    else
      markAndHandOn doc links served

/-- Pass the buckets of `rows` to all `ordinals` of a document. -/
def spread (handingOn : Bool) (doc : Doc) (rows : List WordSet) (ordinals : List Ordinal) :
    Step Transition Unit :=
  if handingOn then
    markAndHandOn doc
      (rows.flatMap fun row =>
        ordinals.flatMap fun ordinal => row.toList.map fun bucket => (ordinal, bucket)) []
  else
    (rows.flatMap fun row => ordinals.map fun ordinal => (ordinal, row)).forM
      fun (ordinal, row) => onReached (LinkTable.addRow ordinal row)

/-- Visit an ancestor of level `level + 1`.  A document without keys at either of the two levels
links nothing. -/
def visit (handingOn : Bool) (p : Partition) (level : Level) (below : LinkTable) (doc : Doc) :
    Step Transition Unit := do
  let lower ← keysOf p level doc
  if lower.isEmpty then
    pure ()
  else
    -- the upper keys are asked for only if there are lower ones
    let upper ← keysOf p (level + 1) doc
    if upper.isEmpty then
      pure ()
    else
      spread handingOn doc ((ascending lower).filterMap below.row?) (ascending upper)

/-- Climb from `level` to the next one: from the buckets by ordinal below to those above.  The
counters change only if the whole walk succeeds. -/
def climb (handingOn : Bool) (p : Partition) (level : Level) (below : LinkTable) :
    Step Journal LinkTable := do
  Journal.ask (.scan (level + 1))
  let visits := (p.scan (level + 1)).withoutRepeats
  let walk : Step Transition Transition := do
    visits.forEach (visit handingOn p level below)
    get
  let done ← walk.inside ⟨.empty below.limit, 0, ← get⟩ Transition.journal
  -- immediate repeats count as one visit
  Journal.count (·.addLevel (.ofNat visits.docs.length))
  Journal.count (·.addForwarded done.handedOn)
  return done.reached

end Transition

/-! ## §2 All levels -/

namespace Ascent

/-- Climb `n` more levels from `level` on, then turn the table back to buckets. -/
def climbFrom (handingOn : Bool) (p : Partition) : Nat → Level → LinkTable → Step Journal LinkTable
  | 0, _, table => Step.ofExcept table.converse
  | n + 1, level, table =>
    -- nothing is reached from here, so no ancestor is looked at
    if table.isEmpty then
      pure (.empty table.limit)
    else do
      -- only the last transition hands anything on
      let above ← Transition.climb (handingOn && n = 0) p level table
      climbFrom handingOn p n (level + 1) above

/-- Climb all levels of a pass: from the level-0 ordinals of each bucket to the ordinals that it
reaches at the last level. -/
def run (s : Settings) (p : Partition) (table : LinkTable) : Step Journal LinkTable :=
  if s.levels = 0 then
    pure table
  else do
    let byOrdinal ← Step.ofExcept table.converse
    climbFrom (s.forwardHits && s.mode = .ancestors) p s.levels 0 byOrdinal

end Ascent

end Lineage
