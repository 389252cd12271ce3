/-!
# Totals

The sum of a list of natural numbers, which is how members, links and documents are counted.
-/

namespace Lineage

/-- The sum of the members of a list. -/
def total (ns : List Nat) : Nat := ns.foldr (· + ·) 0

end Lineage
