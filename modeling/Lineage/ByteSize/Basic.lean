/-!
# Byte sizes

A 64-bit number of bytes, which is written with a unit for people to read.  Units of a thousand
carry the letters `K M G T P E`, those of 1024 an `i` after the letter; only the former are
written, and the largest of them is not read.
-/

namespace Lineage

/-- A number of bytes. -/
structure ByteSize where
  bytes : UInt64
deriving DecidableEq, Repr, Inhabited

/-- The greatest number of bytes, as a natural number. -/
def ByteSize.greatest : Nat := UInt64.size - 1

def ByteSize.megabytes (n : Nat) : ByteSize := ⟨.ofNat (n * 1000000)⟩

end Lineage
