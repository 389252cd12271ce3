import Lineage.Proofs.LinkTable.Limit
import Lineage.Proofs.WordSet.History

/-!
# Histories of link tables

How a table has come about, as a tree: a table that is copied, or merged into another one, has its
own history in each place.  A call that fails is part of the history with what it leaves.

- `wellFormed_table`: every history leads to a table that holds what 32-bit numbers address, with
  all its rows counted.
-/

namespace Lineage.LinkTable

/-- How a table has come about. -/
inductive History where
  | new (limit : Nat)
  | clone (h : History)
  | insert (h : History) (key bit : UInt32)
  | addRow (h : History) (key : UInt32) (bits : WordSet.History)
  | merge (h other : History)
  | reserve (h : History) (wanted : Nat)
  /-- Have the row of a key created, and write into it through the reference. -/
  | amend (h : History) (key : UInt32) (writes : List WordSet.Edit)

namespace History

/-- The table that calls lead to, whether they answer or fail. -/
def table : History → LinkTable
  | .new limit => .empty limit
  | .clone h => h.table
  | .insert h key bit => (LinkTable.insert key bit).after h.table
  | .addRow h key bits => (LinkTable.addRow key bits.set).after h.table
  | .merge h other => (LinkTable.merge other.table).after h.table
  | .reserve h wanted => (LinkTable.reserve wanted).after h.table
  | .amend h key writes => (LinkTable.amend key (WordSet.applyAll writes)).after h.table

end History

theorem WellFormed.after_amend {t : LinkTable} (h : t.WellFormed) (key : UInt32)
    (writes : List WordSet.Edit) :
    ((amend key (WordSet.applyAll writes)).after t).WellFormed :=
  holds_after_amend LinkTable.WellFormed h (h.amended ((h.rows key).applyAll writes))

/-- Every history leads to a well-formed table. -/
theorem History.wellFormed_table (h : History) : h.table.WellFormed := by
  induction h with
  | new limit => exact wellFormed_empty limit
  | clone h ih => exact ih
  | insert h key bit ih =>
    rw [table, after_insert]
    exact ih.after_write ((ih.rows key).insert bit)
  | addRow h key bits ih => exact ih.after_addRow key bits.bounded_set
  | merge h other ih ihOther => exact ih.after_merge ihOther
  | reserve h wanted ih => exact ih.after_reserve wanted
  | amend h key writes ih => exact ih.after_amend key writes

end Lineage.LinkTable
