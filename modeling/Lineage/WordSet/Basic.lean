import Lineage.Address
import Lineage.Total

/-!
# Word sets

A growable set of 32-bit numbers, stored one bit per number in 64-bit words.  Storage is handed
out in blocks of eight words and at least doubles whenever it grows, so a run of insertions costs
amortised constant time.  Two sets with the same members may differ in unused storage; equality
compares the stored words, `toList` the members.

The module has three parts: storage and its growth, the set operations, and the readers.
-/

namespace Lineage

/-- A set of 32-bit numbers: `b` is a member when bit `b % 64` of word `b / 64` is on. -/
structure WordSet where
  /-- The stored words, lowest numbers first. -/
  words : Array (BitVec 64)
deriving DecidableEq, Repr, Inhabited

namespace WordSet

/-! ## §1 Storage -/

/-- The words in which numbers below `bits` fit, rounded up to whole blocks of eight words. -/
def blockWords (bits : Nat) : Nat := (bits + 511) / 512 * 8

/-- The set with no members and no storage. -/
def empty : WordSet := ⟨#[]⟩

/-- The set with no members and storage for all numbers below `bits`. -/
def withCapacity (bits : Nat) : WordSet := ⟨Array.replicate (blockWords bits) 0⟩

/-- All numbers below `capacity` can be inserted without growing. -/
def capacity (s : WordSet) : Nat := s.words.size * 64

/-- The bytes that the stored words take. -/
def bytes (s : WordSet) : Nat := s.words.size * 8

/-- The `i`-th word; words past the stored ones are zero. -/
def word (s : WordSet) (i : Nat) : BitVec 64 := s.words[i]?.getD 0

/-- The words up to the last one that has a bit on. -/
def extent (s : WordSet) : Nat := (s.words.popWhile (· == 0)).size

/-- The size to which storage grows so that all numbers below `bits` fit: whole blocks, and at
least twice the present size. -/
def grownWords (s : WordSet) (bits : Nat) : Nat := max (blockWords bits) (2 * s.words.size)

/-- The bytes that are stored once all numbers below `bits` fit. -/
def bytesToFit (s : WordSet) (bits : Nat) : Nat :=
  if bits ≤ s.capacity then s.bytes else s.grownWords bits * 8

/-- Append zero words until all numbers below `bits` fit. -/
def grow (s : WordSet) (bits : Nat) : WordSet :=
  ⟨s.words ++ Array.replicate (s.grownWords bits - s.words.size) 0⟩

/-- The bytes stored after inserting `b`. -/
def bytesAfterInsert (s : WordSet) (b : UInt32) : Nat := s.bytesToFit (b.toNat + 1)

/-- The bytes stored after adding the members of `t`. -/
def bytesAfterUnion (s t : WordSet) : Nat := s.bytesToFit (t.extent * 64)

/-! ## §2 Set operations -/

def contains (s : WordSet) (b : UInt32) : Bool := (s.word (b.toNat / 64)).getLsbD (b.toNat % 64)

instance : Membership UInt32 WordSet := ⟨fun s b => s.contains b = true⟩

instance (b : UInt32) (s : WordSet) : Decidable (b ∈ s) :=
  inferInstanceAs (Decidable (s.contains b = true))

/-- Add `b`, growing only if its word is not stored yet. -/
def insert (s : WordSet) (b : UInt32) : WordSet :=
  let roomy := if b.toNat / 64 < s.words.size then s else s.grow (b.toNat + 1)
  ⟨roomy.words.modify (b.toNat / 64) (· ||| BitVec.twoPow 64 (b.toNat % 64))⟩

/-- Add `b`, and tell by its bit before that whether it is a new member. -/
def insertFresh (s : WordSet) (b : UInt32) : Bool × WordSet :=
  let roomy := if b.toNat / 64 < s.words.size then s else s.grow (b.toNat + 1)
  let mask := BitVec.twoPow 64 (b.toNat % 64)
  (roomy.word (b.toNat / 64) &&& mask == 0, ⟨roomy.words.modify (b.toNat / 64) (· ||| mask)⟩)

/-- Add all members of `t`, growing only if `t` uses more words than are stored. -/
def union (s t : WordSet) : WordSet :=
  let roomy := if t.extent ≤ s.words.size then s else s.grow (t.extent * 64)
  ⟨roomy.words.mapIdx fun i w => w ||| t.word i⟩

/-- Add the members of a list, one after the other. -/
def insertAll (s : WordSet) (bs : List UInt32) : WordSet := bs.foldl insert s

/-- The set of the members of a list. -/
def ofList (bs : List UInt32) : WordSet := empty.insertAll bs

/-! ## §3 Readers -/

def isEmpty (s : WordSet) : Bool := s.words.all (· == 0)

/-- The positions of the bits that are on, ascending. -/
def bitsOn (w : BitVec 64) : List Nat :=
  -- most words of a sparse set are zero
  if w = 0 then [] else (List.range 64).filter fun j => w.getLsbD j

def cardinality (s : WordSet) : Nat := total (s.words.toList.map fun w => (bitsOn w).length)

/-- The members in ascending order. -/
def toList (s : WordSet) : List UInt32 :=
  s.words.toList.zipIdx.flatMap fun (w, i) => (bitsOn w).map fun j => UInt32.ofNat (i * 64 + j)

/-- The least member stored in the words from the `i`-th on, of which `count` are looked at. -/
def leastFrom (s : WordSet) : Nat → Nat → Option UInt32
  | 0, _ => none
  | count + 1, i =>
    if s.word i = 0 then s.leastFrom count (i + 1)
    else some (UInt32.ofNat (i * 64 + (s.word i).ctz.toNat))

/-- The least member that is not below `b`. -/
def next? (s : WordSet) (b : UInt32) : Option UInt32 :=
  let i := b.toNat / 64
  -- in its own word, only the bits from `b` upwards count
  let own := s.word i &&& (BitVec.allOnes 64 <<< (b.toNat % 64))
  if own = 0 then s.leastFrom (s.words.size - (i + 1)) (i + 1)
  else some (UInt32.ofNat (i * 64 + own.ctz.toNat))

def max? (s : WordSet) : Option UInt32 :=
  match s.extent with
  | 0 => none
  | n + 1 => some (UInt32.ofNat (n * 64 + (63 - (s.word n).clz.toNat)))

def sum (s : WordSet) : Nat := total (s.toList.map UInt32.toNat)

end WordSet

end Lineage
