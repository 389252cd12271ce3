import Lineage.LinkTable.Basic

/-!
# The converse of a link table

Turning a table around: key `a` has member `b` in one table exactly if key `b` has member `a` in
the other.  Key slots are laid out once, for the greatest member, and every link is then written
through the accounted `insert`, so the converse obeys the same limit as the table it is made from.
-/

namespace Lineage.LinkTable

/-- Write links into a table, each turned around. -/
def insertSwapped (links : List (UInt32 × UInt32)) : Step LinkTable Unit :=
  links.forM fun (key, bit) => discard (insert bit key)

/-- The table that links members to keys; it has no row without members. -/
def converse (t : LinkTable) : Except Fault LinkTable :=
  match t.maxMember? with
  | none => .ok (empty t.limit)
  | some bit =>
    let fill : Step LinkTable LinkTable := do
      reserve (bit.toNat + 1)
      insertSwapped t.links
      get
    fill.result (empty t.limit)

end Lineage.LinkTable
