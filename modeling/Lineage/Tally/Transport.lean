import Lineage.Json.Tree
import Lineage.Tally

/-!
# Tallies as text

The JSON form in which the tallies of partitions travel: an object from buckets to numbers, in
ascending order of the buckets.  Keys are read as they are written, so a bucket has exactly one
spelling.
-/

namespace Lineage.Tally

/-- The greatest number that an entry may have in writing. -/
def greatest : Nat := UInt64.size - 1

def toJson (t : Tally Bucket) : Json :=
  .object (t.toList.map fun (bucket, n) => (Nat.toDigits 10 bucket.toNat, .ofNat n))

def write (t : Tally Bucket) : String := t.toJson.render

/-- The bucket that a key writes. -/
def bucket? (key : List Char) : Option Bucket := do
  let n ← Json.plainNat? key
  if n < UInt32.size then some (.ofNat n) else none

/-- The tally that a JSON value writes; the last of several entries for a bucket wins. -/
def ofJson? : Json → Option (Tally Bucket)
  | .object fields => do
    let entries ← fields.mapM fun (key, value) => do
      let bucket ← bucket? key
      let n ← Json.nat? value
      if n ≤ greatest then some (bucket, n) else none
    return ofList entries
  | _ => none

def read (text : String) : Except Fault (Tally Bucket) :=
  match Json.parse? text >>= ofJson? with
  | none => .error ((Fault.ofCause .malformed).under "Failed to parse ancestor counts")
  | some tally => .ok tally

end Lineage.Tally
