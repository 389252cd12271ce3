/-!
# JSON text bodies

What stands between the quotes of a JSON string.  A *body* is kept as it was written; it is only
decoded where its meaning is asked for, so that a string nobody reads may hold escapes that name
no character.  `scan` finds the end of a body, `decode` gives its meaning and `encode` writes one.
-/

namespace Lineage.Json.Text

/-! ## §1 Hexadecimal escapes -/

def hexValue? (c : Char) : Option Nat :=
  if '0' ≤ c ∧ c ≤ '9' then some (c.toNat - '0'.toNat)
  else if 'a' ≤ c ∧ c ≤ 'f' then some (c.toNat - 'a'.toNat + 10)
  else if 'A' ≤ c ∧ c ≤ 'F' then some (c.toNat - 'A'.toNat + 10)
  else none

/-- The number that four hexadecimal digits write. -/
def hexUnit? (a b c d : Char) : Option Nat := do
  let a ← hexValue? a
  let b ← hexValue? b
  let c ← hexValue? c
  let d ← hexValue? d
  return ((a * 16 + b) * 16 + c) * 16 + d

/-- Whether a 16-bit unit is the first half of a surrogate pair. -/
def isHighUnit (u : Nat) : Bool := 0xD800 ≤ u && u < 0xDC00

/-- Whether a 16-bit unit is the second half of a surrogate pair. -/
def isLowUnit (u : Nat) : Bool := 0xDC00 ≤ u && u < 0xE000

/-- The character that a surrogate pair stands for. -/
def pairedChar (high low : Nat) : Char :=
  Char.ofNat (0x10000 + (high - 0xD800) * 0x400 + (low - 0xDC00))

/-! ## §2 Reading -/

/-- The character after a backslash, where it stands for one character. -/
def shortEscape? : Char → Option Char
  | '"' => some '"'
  | '\\' => some '\\'
  | '/' => some '/'
  | 'b' => some '\x08'
  | 'f' => some '\x0c'
  | 'n' => some '\n'
  | 'r' => some '\r'
  | 't' => some '\t'
  | _ => none

/-- Split off a body at the first quote that no backslash escapes.  Control characters and
escapes of an unknown form are refused; which character an escape names is not looked at. -/
def scan : List Char → Option (List Char × List Char)
  | [] => none
  | '"' :: rest => some ([], rest)
  | '\\' :: 'u' :: a :: b :: c :: d :: rest =>
    -- any four digits will do here, half of a surrogate pair too
    match hexUnit? a b c d, scan rest with
    | some _, some (body, after) => some ('\\' :: 'u' :: a :: b :: c :: d :: body, after)
    | _, _ => none
  | '\\' :: e :: rest =>
    match shortEscape? e, scan rest with
    | some _, some (body, after) => some ('\\' :: e :: body, after)
    | _, _ => none
  | c :: rest =>
    if c.toNat < 0x20 ∨ c = '\\' then none
    else (scan rest).map fun (body, after) => (c :: body, after)

/-- The text that a body means; none if an escape names half of a surrogate pair. -/
def decode : List Char → Option (List Char)
  | [] => some []
  | '\\' :: 'u' :: a :: b :: c :: d :: rest =>
    match hexUnit? a b c d with
    | none => none
    | some unit =>
      if isLowUnit unit then none
      else if isHighUnit unit then
        match rest with
        | '\\' :: 'u' :: e :: f :: g :: h :: rest =>
          match hexUnit? e f g h with
          | none => none
          | some low =>
            if isLowUnit low then (decode rest).map (pairedChar unit low :: ·) else none
        | _ => none
      else (decode rest).map (Char.ofNat unit :: ·)
  | '\\' :: e :: rest =>
    match shortEscape? e with
    | none => none
    | some c => (decode rest).map (c :: ·)
  | c :: rest => if c = '\\' then none else (decode rest).map (c :: ·)

/-! ## §3 Writing -/

def hexDigit (n : Nat) : Char := Nat.digitChar (n % 16)

/-- The written form of one character: quotes, backslashes and control characters are escaped,
everything else stands for itself. -/
def encodeChar (c : Char) : List Char :=
  match c with
  | '"' => ['\\', '"']
  | '\\' => ['\\', '\\']
  | '\x08' => ['\\', 'b']
  | '\x0c' => ['\\', 'f']
  | '\n' => ['\\', 'n']
  | '\r' => ['\\', 'r']
  | '\t' => ['\\', 't']
  | c =>
    if c.toNat < 0x20 then ['\\', 'u', '0', '0', hexDigit (c.toNat / 16), hexDigit c.toNat]
    else [c]

/-- The body that means a text. -/
def encode (text : List Char) : List Char := text.flatMap encodeChar

end Lineage.Json.Text
