import Lineage.LinkTable.Basic
import Std.Data.ExtTreeMap

/-!
# Tallies

Numbers by key, as a pass returns them per bucket.  A key without an entry counts zero, and an
entry may hold zero: only its presence tells the two apart.  Tallies of several partitions are
added up key by key, and a tally can be read under other keys.
-/

namespace Lineage

/-- A number for each of finitely many keys. -/
@[ext]
structure Tally (κ : Type) [Ord κ] where
  entries : Std.ExtTreeMap κ Nat

namespace Tally

variable {κ ι : Type} [Ord κ] [Std.TransOrd κ] [Ord ι] [Std.TransOrd ι]

instance [Std.LawfulEqOrd κ] : DecidableEq (Tally κ) := fun a b =>
  decidable_of_iff (a.entries = b.entries) Tally.ext_iff.symm

/-! ## §1 Readers -/

def empty : Tally κ := ⟨∅⟩

/-- The entries in ascending order of their keys. -/
def toList (t : Tally κ) : List (κ × Nat) := t.entries.toList

/-- The entries of a list; the last of several with one key wins. -/
def ofList (entries : List (κ × Nat)) : Tally κ := ⟨.ofList entries⟩

def get (t : Tally κ) (key : κ) : Nat := t.entries.getD key 0

def size (t : Tally κ) : Nat := t.entries.size

def isEmpty (t : Tally κ) : Bool := t.entries.isEmpty

/-! ## §2 Adding up -/

/-- Add to the number of a key, which has an entry from then on. -/
def add (t : Tally κ) (key : κ) (n : Nat) : Tally κ :=
  ⟨t.entries.alter key fun present => some (present.getD 0 + n)⟩

/-- Add all entries of a list. -/
def addAll (t : Tally κ) (entries : List (κ × Nat)) : Tally κ :=
  entries.foldl (fun t entry => t.add entry.1 entry.2) t

/-- Add all entries of another tally. -/
def merge (t u : Tally κ) : Tally κ := t.addAll u.toList

/-- Add up several tallies. -/
def sum (parts : List (Tally κ)) : Tally κ := parts.foldl merge empty

/-- Read a tally under other keys; the numbers of keys that fall together are added. -/
def rekey (f : κ → ι) (t : Tally κ) : Tally ι :=
  empty.addAll (t.toList.map fun (key, n) => (f key, n))

end Tally

/-- The number of members per row of a table, for the rows that have any. -/
def Tally.ofTable (t : LinkTable) : Tally Bucket :=
  .ofList ((t.toList.map fun (key, row) => (key, row.cardinality)).filter fun entry => 0 < entry.2)

end Lineage
