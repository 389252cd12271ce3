/-!
# Bisection

Finding a member of an ascending array.  The stretch of places where it can be is halved by looking
at the member in its middle, until one place is left; what stands there is then compared.
-/

namespace Lineage

variable {α : Type} [Ord α]

/-- The one place, of `size` places from `base` on, where a member of an ascending array can be. -/
def narrow (xs : Array α) (x : α) (base size : Nat) : Nat :=
  if size ≤ 1 then base
  else
    let half := size / 2
    -- the middle itself belongs to the upper half
    let inUpper := (xs[base + half]?).all fun y => compare y x != .gt
    narrow xs x (if inUpper then base + half else base) (size - half)
termination_by size

/-- The place of a member of an ascending array, if it is there. -/
def bisect (xs : Array α) (x : α) : Option Nat :=
  let place := narrow xs x 0 xs.size
  if (xs[place]?).any fun y => compare y x == .eq then some place else none

end Lineage
