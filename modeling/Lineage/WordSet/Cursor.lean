import Lineage.WordSet.Basic

/-!
# Walking over a word set

A cursor gives the members of a word set one at a time, in ascending order.  It keeps those bits of
the word it has come to that it has not given yet, and clears the lowest of them with every member
that it gives.  At the end it gives none, however often it is asked again.
-/

namespace Lineage.WordSet

/-- How far a walk over the members has come. -/
structure Cursor where
  /-- The bits of the present word that are still to be given. -/
  bits : BitVec 64
  /-- The number of the present word. -/
  index : Nat
  /-- The words after it. -/
  rest : List (BitVec 64)
deriving Repr

/-- A walk that has not given any member yet. -/
def cursor (s : WordSet) : Cursor :=
  match s.words.toList with
  | [] => ⟨0, 0, []⟩
  | w :: ws => ⟨w, 0, ws⟩

namespace Cursor

/-- Pass over words of which nothing is left to give. -/
def settle (bits : BitVec 64) (index : Nat) : List (BitVec 64) → Cursor
  | [] => ⟨bits, index, []⟩
  | w :: ws => if bits = 0 then settle w (index + 1) ws else ⟨bits, index, w :: ws⟩

/-- The next member, if there is one, and where the walk is then. -/
def next (c : Cursor) : Option UInt32 × Cursor :=
  let c := settle c.bits c.index c.rest
  if c.bits = 0 then (none, c)
  else
    (some (UInt32.ofNat (c.index * 64 + c.bits.ctz.toNat)),
      { c with bits := c.bits &&& (c.bits - 1) })

/-- The members that the next `n` questions give; the first one that gives none is the last. -/
def take : Nat → Cursor → List UInt32
  | 0, _ => []
  | n + 1, c =>
    match c.next with
    | (some b, c) => b :: take n c
    | (none, _) => []

end Cursor

end Lineage.WordSet
