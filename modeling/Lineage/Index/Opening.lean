import Lineage.Index.FilterScan
import Lineage.Index.JoinChain.Basic
import Lineage.Index.MainDocuments
import Lineage.Index.TermNumbering

/-!
# Opening a partition

A snapshot of an index as the partition of a pass: the join keys of a level are the ordinals of a
column, its ancestors the documents that a filter selects.  Levels that name one column share its
numbering.  What the chain or the schema lacks shows here or, for a missing ancestor filter, when
the partition is checked.
-/

namespace Lineage.Index

/-! ## §1 Key columns -/

/-- The numberings of the key columns, for the levels from 0 on. -/
structure KeyColumns where
  levels : List TermNumbering
deriving DecidableEq, Repr

namespace KeyColumns

/-- Open the key columns of the levels from 0 on. -/
def ofNames (s : Snapshot) (columns : List String) : Except Fault KeyColumns := do
  return ⟨← columns.mapM (TermNumbering.ofField s)⟩

/-- The ordinals that a document carries at a level. -/
def keys (k : KeyColumns) (level : Level) (doc : Doc) : Except Fault (List Ordinal) :=
  match k.levels[level]? with
  | some numbering => .ok (numbering.ordinalsOf doc)
  | none => .error (.configuration (.noKeyColumn level))

end KeyColumns

/-! ## §2 Partitions -/

/-- The key columns that a pass needs: none where main documents are counted directly, and one
more than it has levels otherwise. -/
def JoinChain.columnsFor (chain : JoinChain) (s : Settings) : Except Fault (List String) :=
  if s.isDirect then .ok []
  else if chain.keyColumns.length ≤ s.levels then
    .error (.configuration (.fewKeyColumns s.levels chain.keyColumns.length))
  else .ok (chain.keyColumns.take (s.levels + 1))

/-- The main documents, if hits are nested and the chain tells how to find them. -/
def JoinChain.mainsFor (chain : JoinChain) (s : Settings) (snapshot : Snapshot) :
    Except Fault (Option MainDocuments) :=
  match chain.mainDocumentFilter with
  | some filter => if s.nested then (MainDocuments.ofFilter snapshot filter).map some else .ok none
  | none => .ok none

/-- The partition of a pass over a snapshot. -/
def partitionOver (snapshot : Snapshot) (chain : JoinChain) (s : Settings) :
    Except Fault Partition := do
  let columns ← chain.columnsFor s
  let keys ← KeyColumns.ofNames snapshot columns
  let scan ← FilterScan.ofFilters snapshot (chain.ancestorFilters.take s.levels) s.strategy
  let mains ← chain.mainsFor s snapshot
  return {
    keys := keys.keys
    checkLevel := scan.checkLevel
    scan := fun level => (scan.visit level).1
    mainDocument := mains.map MainDocuments.mainOf }

end Lineage.Index
