import Lineage.Index.FieldTerm

/-!
# Join chains

How the levels of a pass are found in an index: the column that holds the join key of each level,
the filter that selects the ancestors of each level, and the filter that selects main documents.
-/

namespace Lineage.Index

/-- How the levels of a pass are found in an index. -/
structure JoinChain where
  /-- The columns of the join keys, for the levels from 0 on. -/
  keyColumns : List String
  /-- The filters of the ancestors, for the levels from 1 on. -/
  ancestorFilters : List FieldTerm
  /-- The filter of the main documents, where hits are nested. -/
  mainDocumentFilter : Option FieldTerm
deriving DecidableEq, Repr, Inhabited

end Lineage.Index
