import Lineage.WordSet.Basic
import Lineage.Step

/-!
# Link tables

A sparse table from 32-bit keys to word sets, with a limit on the bytes it may hold.  One type
serves both directions of a level: from buckets to the ordinals they reach and from ordinals to
the buckets that reach them.

A key slot costs 24 bytes, a row costs its stored words.  Rows are charged when they are written
through `insert` or `addRow`; a row written through `amend` is not.  Every check that fails
leaves a growth fault.  The last check of a write, `charge`, comes after the write itself.
-/

namespace Lineage

/-- Rows of members by key, under a limit on the bytes held. -/
structure LinkTable where
  /-- One slot per key from 0 on; an empty slot is a key without a row. -/
  rows : Array (Option WordSet)
  /-- The number of rows, rows without members included, kept as rows are created. -/
  size : Nat
  charged : Nat
  limit : Nat
deriving DecidableEq, Repr, Inhabited

namespace LinkTable

/-! ## §1 Readers -/

/-- The bytes that one key slot takes. -/
def slotBytes : Nat := 24

/-- The fewest key slots that are laid out at once. -/
def fewestSlots : Nat := 16

def empty (limit : Nat) : LinkTable := ⟨#[], 0, 0, limit⟩

/-- The bytes held: the key slots and what the rows were charged with. -/
def bytes (t : LinkTable) : Nat := t.rows.size * slotBytes + t.charged

/-- The row of a key, if there is one. -/
def row? (t : LinkTable) (key : UInt32) : Option WordSet := t.rows[key.toNat]?.join

/-- The row of a key; without members if there is none. -/
def row (t : LinkTable) (key : UInt32) : WordSet := (t.row? key).getD .empty

/-- The rows with their keys, in ascending order of the keys. -/
def toList (t : LinkTable) : List (UInt32 × WordSet) :=
  t.rows.toList.zipIdx.filterMap fun (row, key) => row.map fun bits => (UInt32.ofNat key, bits)

def isEmpty (t : LinkTable) : Bool := t.size = 0

def maxKey? (t : LinkTable) : Option UInt32 := (t.toList.map Prod.fst).getLast?

def maxMember? (t : LinkTable) : Option UInt32 := (t.toList.filterMap fun (_, row) => row.max?).max?

/-- The members of all rows, counted per row. -/
def linkCount (t : LinkTable) : Nat := total (t.toList.map fun (_, row) => row.cardinality)

/-- The pairs of a key and a member of its row, ascending by key and then by member. -/
def links (t : LinkTable) : List (UInt32 × UInt32) :=
  t.toList.flatMap fun (key, row) => row.toList.map fun bit => (key, bit)

/-! ## §2 Growth and its checks -/

/-- The number of slots laid out so that `wanted` keys fit: at least twice the present number. -/
def grownSlots (t : LinkTable) (wanted : Nat) : Nat :=
  max (max wanted (t.rows.size * 2)) fewestSlots

/-- Lay out key slots until `wanted` keys fit. -/
def growSlots (wanted : Nat) : Step LinkTable Unit := do
  let t ← get
  let slots := t.grownSlots wanted
  -- a row that is about to grow counts as it is now
  let bytes := slots * slotBytes + t.charged
  if t.limit < bytes then
    Step.fail (.growth (.slots wanted bytes t.limit))
  set { t with rows := t.rows ++ Array.replicate (slots - t.rows.size) none }

/-- Lay out key slots ahead of their use. -/
def reserve (wanted : Nat) : Step LinkTable Unit := do
  if (← get).rows.size < wanted then
    growSlots wanted

/-- Refuse to grow a row to `rowBytes` bytes if the table would then pass its limit. -/
def checkRow (key : UInt32) (rowBytes : Nat) : Step LinkTable Unit := do
  let t ← get
  let present := (t.row key).bytes
  if present < rowBytes then
    -- slots that the write may need besides are not counted
    let bytes := t.bytes + rowBytes - present
    if t.limit < bytes then
      Step.fail (.growth (.row key rowBytes bytes t.limit))

/-- Charge a row that went from `before` to `now` bytes. -/
def charge (before now : Nat) : Step LinkTable Unit := do
  modify fun t => { t with charged := t.charged + now - before }
  -- the change has been made by now, and a refusal does not take it back
  let t ← get
  if t.limit < t.bytes then
    Step.fail (.growth (.table t.bytes t.limit))

/-! ## §3 Writing -/

/-- Change the row of a key, creating it if need be, without charging it. -/
def amend (key : UInt32) (change : WordSet → WordSet) : Step LinkTable Unit := do
  reserve (key.toNat + 1)
  modify fun t =>
    { t with
      rows := t.rows.modify key.toNat fun row => some (change (row.getD .empty))
      size := if (t.row? key).isNone then t.size + 1 else t.size }

/-- Change the row of a key and charge it, after checking that a row of `rowBytes` bytes fits. -/
def write (key : UInt32) (rowBytes : Nat) (change : WordSet → WordSet) : Step LinkTable Unit := do
  checkRow key rowBytes
  let before := (← get).row key
  amend key change
  charge before.bytes (change before).bytes

/-- Add a member to the row of a key; tells whether it is a new one. -/
def insert (key bit : UInt32) : Step LinkTable Bool := do
  let before := (← get).row key
  write key (before.bytesAfterInsert bit) (·.insert bit)
  return !before.contains bit

/-- Add all members of a set to the row of a key. -/
def addRow (key : UInt32) (bits : WordSet) : Step LinkTable Unit := do
  let before := (← get).row key
  write key (before.bytesAfterUnion bits) (·.union bits)

/-- Add all rows of another table, in ascending order of their keys. -/
def merge (other : LinkTable) : Step LinkTable Unit := do
  -- all slots at once; without rows there is nothing to lay out
  if let some key := other.maxKey? then
    reserve (key.toNat + 1)
  other.toList.forM fun (key, row) => addRow key row

end LinkTable

end Lineage
