import Lineage.Partition.Basic

/-!
# Listed partitions

A partition that is written out: the keys of each document, the ancestors of each level, the main
documents, and the questions that are meant to fail.
-/

namespace Lineage

/-- A question that is meant to fail. -/
inductive Refusal where
  | ensure (level : Level)
  /-- The walk over the ancestors of a level, before the document of a given number. -/
  | scan (level : Level) (number : Nat)
  | keys (level : Level) (doc : Doc)
deriving DecidableEq, Repr

/-- A partition that is written out. -/
structure Listing where
  /-- The keys of documents by level; the last of several entries for a document and level holds,
  and a document without an entry has none. -/
  keys : List (Doc × Level × List Ordinal)
  /-- The ancestors of the levels from 1 on. -/
  ancestors : List (List Doc)
  mains : Option (List Doc)
  refusals : List (Refusal × Fault)

namespace Listing

/-- The main document of a hit: the first one at or after it in its segment. -/
def enclosing (mains : List Doc) (hit : Doc) : Option Doc :=
  let after := mains.filterMap fun main =>
    if main.segment = hit.segment ∧ hit.id ≤ main.id then some main.id else none
  after.min?.map fun id => ⟨hit.segment, id⟩

def refusal? (l : Listing) (question : Refusal) : Option Fault :=
  (l.refusals.find? fun refusal => refusal.1 = question).map Prod.snd

def unlessRefused (l : Listing) (question : Refusal) : Except Fault Unit :=
  match l.refusal? question with
  | some fault => .error fault
  | none => .ok ()

def keysOf (l : Listing) (level : Level) (doc : Doc) : Except Fault (List Ordinal) := do
  l.unlessRefused (.keys level doc)
  let entries := l.keys.filter fun entry => entry.1 = doc ∧ entry.2.1 = level
  return (entries.getLast?.map fun entry => entry.2.2).getD []

/-- Levels are there from 1 on, as many as have their ancestors listed. -/
def checkLevel (l : Listing) (level : Level) : Except Fault Unit := do
  l.unlessRefused (.ensure level)
  if level = 0 ∨ l.ancestors.length < level then
    throw (.configuration (.noRelation level))

/-- The documents of a walk up to the first number at which it is meant to break off. -/
def visitsFrom (l : Listing) (level : Level) : Nat → List Doc → Visits
  | _, [] => ⟨[], .ok ()⟩
  | number, doc :: docs =>
    match l.refusal? (.scan level number) with
    | some fault => ⟨[], .error fault⟩
    | none =>
      let rest := l.visitsFrom level (number + 1) docs
      ⟨doc :: rest.docs, rest.ending⟩

/-- The walk over the ancestors of a level. -/
def scan (l : Listing) (level : Level) : Visits :=
  match l.checkLevel level with
  | .error fault => ⟨[], .error fault⟩
  | .ok () => l.visitsFrom level 0 (l.ancestors.getD (level - 1) [])

def toPartition (l : Listing) : Partition where
  keys := l.keysOf
  checkLevel := l.checkLevel
  scan := l.scan
  mainDocument := l.mains.map enclosing

end Listing

end Lineage
