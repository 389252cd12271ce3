import Lineage.ByteSize.Basic

/-!
# Writing byte sizes

Sizes below a thousand are written as bytes.  Larger ones are written in units of a power of a
thousand with one decimal place, which rounds the double-precision quotient exactly, a half going
to the even neighbour.  The unit changes near the powers of 1024, so that amounts up to 1125.9
occur.
-/

namespace Lineage.ByteSize

/-! ## §1 One decimal place -/

/-- A quotient rounded to a whole number, a half to the even neighbour. -/
def roundToEven (num den : Nat) : Nat :=
  let q := num / den
  let twice := 2 * (num % den)
  if twice < den then q
  else if den < twice then q + 1
  else q + q % 2

/-- A double of at least one as a fraction with a power of two below. -/
def fraction (x : Float) : Nat × Nat :=
  let bits := x.toBits.toNat
  let implicitBit := Nat.pow 2 52
  let exponent := bits / implicitBit
  let mantissa := bits % implicitBit + implicitBit
  if exponent < 1075 then (mantissa, Nat.pow 2 (1075 - exponent))
  else (mantissa * Nat.pow 2 (exponent - 1075), 1)

/-- A double of at least one in tenths. -/
def tenths (x : Float) : Nat :=
  let (num, den) := fraction x
  roundToEven (num * 10) den

/-! ## §2 Units -/

/-- The letters of the units above the byte, each with the least size that is written in it.
After the first, a unit starts where the natural logarithm of the size, as a double, reaches one
more multiple of 6.931471806, the rounded logarithm of 1024. -/
def unitStarts : List (Char × Nat) :=
  [('K', 1000), ('M', 1048577), ('G', 1073741826), ('T', 1099511629538), ('P', 1125899909097501),
    ('E', 1152921507377637248)]

def render (size : ByteSize) : String :=
  let n := size.bytes.toNat
  -- the units that start no later than the size; the last of them is used
  let reached := unitStarts.takeWhile fun (_, start) => start ≤ n
  match reached.getLast? with
  | none => s!"{n} B"
  | some (letter, _) =>
    let amount := tenths (size.bytes.toFloat / Float.ofNat (Nat.pow 1000 reached.length))
    s!"{amount / 10}.{amount % 10} {letter}B"

end Lineage.ByteSize
