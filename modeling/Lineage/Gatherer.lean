import Lineage.Facts
import Lineage.Journal
import Lineage.Partition.Basic

/-!
# Gathering hits

A gatherer takes the hits of a query, one per document and bucket, and keeps the level-0 facts.
On the way it may hand on documents: in the mode for hits every hit once per bucket, in the mode
for ancestors and with direct counting every main document once per bucket.

Two memories decide what is new.  The full memory of handed-on hits does not depend on the order
of the hits.  The memory of the document seen last only saves work: it lets back-to-back repeats
of a document and bucket pass without asking for keys again.
-/

namespace Lineage

/-- What a gatherer hands on, settled when it starts. -/
inductive Forwarding where
  | off
  /-- Every hit, once per bucket; those handed on are remembered. -/
  | hits (seen : Sightings)
  /-- Every main document, once per bucket. -/
  | mainDocuments
deriving DecidableEq

/-- A gatherer of hits. -/
structure Gatherer where
  facts : Facts
  forwarding : Forwarding
  recent : Recent
  hits : Nat
deriving DecidableEq

namespace Gatherer

/-! ## §1 Start -/

/-- What is handed on under some settings. -/
def forwardingFor (s : Settings) : Forwarding :=
  if s.forwardHits then
    match s.mode with
    | .hits => .hits (.empty s.limit)
    | .ancestors => if s.isDirect then .mainDocuments else .off
  else .off

def factsFor (s : Settings) : Facts :=
  if s.isDirect then .documents (.empty s.limit) else .links (.empty s.limit)

/-- A gatherer before its first hit.  Nested hits need a partition that knows main documents. -/
def start (s : Settings) (p : Partition) : Except Fault Gatherer :=
  if s.nested ∧ p.mainDocument.isNone then .error (.configuration .noMainDocuments)
  else .ok ⟨factsFor s, forwardingFor s, .empty, 0⟩

/-! ## §2 One hit -/

/-- Hand on a document for a bucket and count it once it is taken. -/
def handOn (bucket : Bucket) (doc : Doc) : Step (Gatherer × Journal) Unit := do
  let (g, j) ← get
  let pass : Step Journal Unit := do
    Journal.handOn ⟨bucket, doc⟩
    Journal.count (·.addForwarded 1)
  pass.inside j fun j => (g, j)

/-- Where hits are handed on: remember this one and hand it on if it is new. -/
def forwardHit (bucket : Bucket) (hit : Doc) : Step (Gatherer × Journal) Unit := do
  let (g, j) ← get
  match g.forwarding with
  | .hits seen =>
    let fresh ← (Sightings.insert bucket hit).inside seen fun seen =>
      ({ g with forwarding := .hits seen }, j)
    if fresh then handOn bucket hit
  | _ => pure ()

/-- Whether a document is new for a bucket to the memory of the document seen last. -/
def sightRecent (bucket : Bucket) (doc : Doc) : Step (Gatherer × Journal) Bool := do
  let (g, j) ← get
  let (fresh, recent) := g.recent.sight doc bucket
  set ({ g with recent }, j)
  return fresh

def ownKeys (p : Partition) (doc : Doc) : Step (Gatherer × Journal) (List Ordinal) := do
  let (g, j) ← get
  (Journal.ask (.keys 0 doc)).inside j fun j => (g, j)
  Step.ofExcept (p.keys 0 doc)

def link (bucket : Bucket) (ordinal : Ordinal) : Step (Gatherer × Journal) Unit := do
  let (g, j) ← get
  match g.facts with
  | .links table =>
    discard ((LinkTable.insert bucket ordinal).inside table fun table =>
      ({ g with facts := .links table }, j))
  | .documents _ => pure ()

/-- Enter the document that a hit counts under into the facts. -/
def enter (p : Partition) (bucket : Bucket) (doc : Doc) : Step (Gatherer × Journal) Unit := do
  let (g, j) ← get
  match g.facts with
  | .documents seen =>
    let fresh ← (Sightings.insert bucket doc).inside seen fun seen =>
      ({ g with facts := .documents seen }, j)
    if fresh ∧ g.forwarding = .mainDocuments then handOn bucket doc
  | .links _ =>
    let ordinals ← ownKeys p doc
    ordinals.forM (link bucket)

def take (s : Settings) (p : Partition) (hit : Doc) (bucket : Bucket) :
    Step (Gatherer × Journal) Unit := do
  modify fun (g, j) => ({ g with hits := g.hits + 1 }, j)
  -- a hit is handed on even if it has no main document
  forwardHit bucket hit
  match p.target s hit with
  | none => pure ()
  | some doc =>
    -- seen just before, a document has been entered for the bucket
    if ← sightRecent bucket doc then
      enter p bucket doc

/-! ## §3 End -/

/-- Count the hits taken and give out the facts. -/
def close (g : Gatherer) : Step Journal Facts := do
  Journal.count (·.addCollected (.ofNat g.hits))
  return g.facts

end Gatherer

end Lineage
