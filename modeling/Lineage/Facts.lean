import Lineage.Sightings

/-!
# Level-0 facts

What the hits of a pass leave behind.  Where levels are climbed, these are the level-0 ordinals
that each bucket reaches; where main documents are counted directly, it is the main documents that
were seen for each bucket.  Facts gathered apart are brought together by union.
-/

namespace Lineage

/-- What hits leave behind. -/
inductive Facts where
  /-- The level-0 ordinals of each bucket, from where the levels are climbed. -/
  | links (table : LinkTable)
  /-- The main documents of each bucket, which are counted as they are. -/
  | documents (seen : Sightings)
deriving DecidableEq

namespace Facts

def isEmpty : Facts → Bool
  | links table => table.isEmpty
  | documents seen => seen.isEmpty

/-- Add facts that were gathered apart; they must be of one shape. -/
def merge (other : Facts) : Step Facts Unit := do
  match ← get, other with
  | links mine, links theirs => (LinkTable.merge theirs).inside mine links
  | documents mine, documents theirs => (Sightings.merge theirs).inside mine documents
  | _, _ => Step.fail (.ofCause .mixedFacts)

end Facts

end Lineage
