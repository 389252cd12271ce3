import Lineage.ByteSize.Basic

/-!
# Reading byte sizes

A size is a plain number of bytes, or an amount with a unit.  The amount may have a fractional
part; amount and unit are multiplied in double precision, and the product loses its fraction and
is capped at the greatest size.
-/

namespace Lineage.ByteSize

/-! ## §1 Plain numbers -/

/-- The number that a text of digits writes; zeros may stand in front. -/
def digits? : List Char → Option Nat
  | [] => none
  | cs => if cs.all Char.isDigit then some (Nat.ofDigitChars 10 cs 0) else none

/-- A plain number of bytes, with or without a plus sign. -/
def plain? (cs : List Char) : Option ByteSize := do
  let n ← match cs with
    | '+' :: cs => digits? cs
    | cs => digits? cs
  if n ≤ greatest then some ⟨.ofNat n⟩ else none

/-! ## §2 Amounts with a unit -/

def isAmountChar (c : Char) : Bool := c.isDigit || c = '.'

/-- The double nearest to a decimal amount: digits with at most one point among or around them. -/
def amount? (cs : List Char) : Option Float :=
  match cs.span Char.isDigit with
  | (whole, []) => (digits? whole).map fun n => Float.ofScientific n true 0
  | (whole, _ :: fraction) =>
    if fraction.all Char.isDigit then
      (digits? (whole ++ fraction)).map fun n => Float.ofScientific n true fraction.length
    else none

/-- The characters with the property White_Space, by code point. -/
def blanks : List (Nat × Nat) :=
  [(0x09, 0x0D), (0x20, 0x20), (0x85, 0x85), (0xA0, 0xA0), (0x1680, 0x1680), (0x2000, 0x200A),
    (0x2028, 0x2029), (0x202F, 0x202F), (0x205F, 0x205F), (0x3000, 0x3000)]

/-- Whether a character may stand between an amount and its unit. -/
def isBlank (c : Char) : Bool :=
  blanks.any fun (first, last) => first ≤ c.toNat && c.toNat ≤ last

/-- The lower case of a letter of a unit.  Of the characters beyond ASCII only the Kelvin sign
has an ASCII letter as its lower case. -/
def lowerUnitChar (c : Char) : Char := if c = '\u212A' then 'k' else c.toLower

/-- The bytes of a unit, given in lower case. -/
def unitBytes? (unit : String) : Option Nat :=
  match unit with
  | "b" => some 1
  | "k" | "kb" => some (Nat.pow 1000 1)
  | "m" | "mb" => some (Nat.pow 1000 2)
  | "g" | "gb" => some (Nat.pow 1000 3)
  | "t" | "tb" => some (Nat.pow 1000 4)
  | "p" | "pb" => some (Nat.pow 1000 5)
  | "ki" | "kib" => some (Nat.pow 1024 1)
  | "mi" | "mib" => some (Nat.pow 1024 2)
  | "gi" | "gib" => some (Nat.pow 1024 3)
  | "ti" | "tib" => some (Nat.pow 1024 4)
  | "pi" | "pib" => some (Nat.pow 1024 5)
  | _ => none

/-- An amount, blanks and a unit in any case. -/
def withUnit? (cs : List Char) : Option ByteSize := do
  let (amount, rest) := cs.span isAmountChar
  let amount ← amount? amount
  let unit ← unitBytes? (.ofList ((rest.dropWhile isBlank).map lowerUnitChar))
  return ⟨(amount * Float.ofNat unit).toUInt64⟩

def parse? (text : String) : Option ByteSize := plain? text.toList <|> withUnit? text.toList

end Lineage.ByteSize
