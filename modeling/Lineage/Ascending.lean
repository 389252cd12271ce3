import Std.Data.ExtTreeSet

/-!
# Ascending lists

The distinct members of a list in ascending order, which is how join keys, terms and buckets are
brought together.
-/

namespace Lineage

/-- The distinct members of a list in ascending order. -/
def ascending {α : Type} [Ord α] [Std.TransOrd α] (xs : List α) : List α :=
  (Std.ExtTreeSet.ofList xs).toList

end Lineage
