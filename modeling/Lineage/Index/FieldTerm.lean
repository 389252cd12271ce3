/-!
# Terms of fields

An exact term in a field, which selects the documents that hold it.
-/

namespace Lineage.Index

/-- A term in a field, as a filter on documents. -/
structure FieldTerm where
  field : String
  term : String
deriving DecidableEq, Repr, Inhabited

end Lineage.Index
