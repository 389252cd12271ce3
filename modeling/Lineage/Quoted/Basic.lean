import Lineage.Quoted.Hidden

/-!
# Quoted names

A name between double quotes, in a form that can be read off a line of text: a backslash and a
quote stand behind a backslash, and a character that would not show is spelled out, by a letter if
it has one and by its code point otherwise.  Main statement: no hidden character is left
(`isHidden_eq_false_of_mem_encode`).
-/

namespace Lineage.Quoted

/-! ## §1 Writing -/

/-- The letter behind a backslash that stands for a character, if there is one. -/
def letter? : Char → Option Char
  | '\x00' => some '0'
  | '\t' => some 't'
  | '\n' => some 'n'
  | '\r' => some 'r'
  | '"' => some '"'
  | '\\' => some '\\'
  | _ => none

/-- A code point in braces, in hexadecimal without leading zeros. -/
def codePoint (c : Char) : List Char :=
  ['\\', 'u', '\x7b'] ++ Nat.toDigits 16 c.toNat ++ ['\x7d']

def encodeChar (c : Char) : List Char :=
  match letter? c with
  | some letter => ['\\', letter]
  | none => if isHidden c then codePoint c else [c]

/-- What stands between the quotes. -/
def encode (name : List Char) : List Char := name.flatMap encodeChar

def quote (name : String) : String := .ofList ('"' :: encode name.toList ++ ['"'])

/-! ## §2 Nothing hidden is left -/

private theorem isHidden_digitChar {d : Nat} (h : d < 16) : isHidden d.digitChar = false := by
  have ascii : ∀ d : Fin 16, 0x20 ≤ d.val.digitChar.toNat ∧ d.val.digitChar.toNat ≤ 0x7E := by
    decide
  obtain ⟨low, high⟩ := ascii ⟨d, h⟩
  exact isHidden_eq_false_of_ascii low high

/-- A number in hexadecimal holds no hidden character. -/
private theorem isHidden_of_mem_toDigits {n : Nat} {c : Char} (mem : c ∈ Nat.toDigits 16 n) :
    isHidden c = false := by
  induction n using Nat.strongRecOn with
  | _ n ih =>
    rw [Nat.toDigits_eq_if (by decide)] at mem
    split at mem
    case isTrue small =>
      rw [List.mem_singleton.1 mem]
      exact isHidden_digitChar small
    case isFalse =>
      rcases List.mem_append.1 mem with front | last
      · exact ih (n / 16) (by omega) front
      · rw [List.mem_singleton.1 last]
        exact isHidden_digitChar (Nat.mod_lt n (by decide))

/-- The written form of a character holds no hidden character. -/
private theorem isHidden_of_mem_encodeChar {c d : Char} (mem : d ∈ encodeChar c) :
    isHidden d = false := by
  unfold encodeChar at mem
  split at mem
  case h_1 letter h =>
    have visible : isHidden letter = false := by
      unfold letter? at h
      split at h <;> cases h <;> decide +kernel
    rcases List.mem_cons.1 mem with rfl | mem
    · decide +kernel
    · rwa [List.mem_singleton.1 mem]
  case h_2 =>
    split at mem
    case isTrue =>
      simp only [codePoint, List.mem_append, List.mem_cons, List.not_mem_nil, or_false] at mem
      rcases mem with ((rfl | rfl | rfl) | mem) | rfl
      · decide +kernel
      · decide +kernel
      · decide +kernel
      · exact isHidden_of_mem_toDigits mem
      · decide +kernel
    case isFalse shown =>
      rw [List.mem_singleton.1 mem]
      simpa using shown

/-- The written form of a name holds no hidden character. -/
theorem isHidden_eq_false_of_mem_encode {name : List Char} {d : Char} (mem : d ∈ encode name) :
    isHidden d = false := by
  obtain ⟨c, _, mem⟩ := List.mem_flatMap.1 mem
  exact isHidden_of_mem_encodeChar mem

end Lineage.Quoted
