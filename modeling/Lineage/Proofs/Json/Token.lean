import Lineage.Json.Tree
import Mathlib.Data.List.TakeDrop

/-!
# What JSON tokens say

The contents of tokens, as they are written and read: the body of a string is a sequence of written
characters, each of which is split off and decoded on its own, and a number literal is the digits of
a natural number.

- `Text.scan_encode`, `Text.decode_encode`: a written body ends where it should and means its text;
- `plainNat?_toDigits`, `scanNumber_toDigits`: the digits of a number are split off and read as it.
-/

namespace Lineage.Json.Text

/-! ## §1 Text bodies -/

theorem hexValue?_hexDigit (n : Nat) : hexValue? (hexDigit n) = some (n % 16) := by
  have hdigits : ∀ k < 16, hexValue? (Nat.digitChar k) = some k := by decide
  exact hdigits (n % 16) (Nat.mod_lt n (by decide))

theorem hexUnit?_hexDigit {n : Nat} (hn : n < 256) :
    hexUnit? '0' '0' (hexDigit (n / 16)) (hexDigit n) = some n := by
  have hzero : hexValue? '0' = some 0 := by decide
  unfold hexUnit?
  rw [hzero, hexValue?_hexDigit, hexValue?_hexDigit]
  simp only [Option.bind_eq_bind, Option.bind_some, Option.pure_def]
  congr 1
  omega

/-- A character is written as a short escape, as a long one, or as itself. -/
theorem encodeChar_cases (c : Char) :
    (∃ e, e ≠ 'u' ∧ shortEscape? e = some c ∧ encodeChar c = ['\\', e]) ∨
      (c.toNat < 0x20 ∧ encodeChar c =
        ['\\', 'u', '0', '0', hexDigit (c.toNat / 16), hexDigit c.toNat]) ∨
      (c ≠ '"' ∧ c ≠ '\\' ∧ 0x20 ≤ c.toNat ∧ encodeChar c = [c]) := by
  unfold encodeChar
  split
  case h_8 _ hquote hbackslash _ _ _ _ _ =>
    split
    case isTrue hcontrol => exact .inr (.inl ⟨hcontrol, rfl⟩)
    case isFalse hplain => exact .inr (.inr ⟨hquote, hbackslash, Nat.le_of_not_lt hplain, rfl⟩)
  all_goals exact .inl ⟨_, by decide, by decide, rfl⟩

/-- A digit is written as itself. -/
theorem encodeChar_of_isDigit {c : Char} (h : c.isDigit = true) : encodeChar c = [c] := by
  obtain ⟨e, -, hescape, -⟩ | ⟨hcontrol, -⟩ | ⟨-, -, -, hwritten⟩ := encodeChar_cases c
  · unfold shortEscape? at hescape
    split at hescape <;> cases hescape <;> cases h
  · have hdigit : '0'.toNat ≤ c.toNat := (Char.isDigit_iff_toNat.1 h).1
    exact absurd (Nat.lt_of_le_of_lt hdigit hcontrol) (by decide)
  · exact hwritten

/-- Written characters are split off one after the other. -/
theorem scan_encodeChar (c : Char) (cs : List Char) :
    scan (encodeChar c ++ cs) =
      (scan cs).map fun (body, after) => (encodeChar c ++ body, after) := by
  obtain ⟨e, he, hescape, hwritten⟩ | ⟨hcontrol, hwritten⟩ | ⟨hquote, hbackslash, hplain, hwritten⟩ :=
    encodeChar_cases c
  -- a short escape is looked up only after the long one has been ruled out
  · rw [hwritten, List.cons_append, List.cons_append, List.nil_append, scan, hescape]
    · cases scan cs <;> rfl
    · intro _ _ _ _ _ hu
      exact absurd hu he
  · have hunit := hexUnit?_hexDigit (n := c.toNat) (by omega)
    rw [hwritten]
    simp only [List.cons_append, List.nil_append]
    rw [scan, hunit]
    cases scan cs <;> rfl
  · rw [hwritten, List.cons_append, List.nil_append, scan]
    · rw [if_neg (not_or.2 ⟨by omega, hbackslash⟩)]
      rfl
    · exact hquote
    · intro _ _ _ _ _ h
      exact absurd h hbackslash
    · intro _ _ h
      exact absurd h hbackslash

/-- A written body ends at the quote after it. -/
theorem scan_encode (text rest : List Char) :
    scan (encode text ++ '"' :: rest) = some (encode text, rest) := by
  induction text with
  | nil => rfl
  | cons c text ih =>
    have hcons : encode (c :: text) = encodeChar c ++ encode text := rfl
    rw [hcons, List.append_assoc, scan_encodeChar, ih]
    rfl

theorem decode_encodeChar (c : Char) (cs : List Char) :
    decode (encodeChar c ++ cs) = (decode cs).map (c :: ·) := by
  obtain ⟨e, he, hescape, hwritten⟩ | ⟨hcontrol, hwritten⟩ | ⟨hquote, hbackslash, hplain, hwritten⟩ :=
    encodeChar_cases c
  · rw [hwritten, List.cons_append, List.cons_append, List.nil_append, decode, hescape]
    intro _ _ _ _ _ hu
    exact absurd hu he
  · have hunit := hexUnit?_hexDigit (n := c.toNat) (by omega)
    -- control characters are no surrogates, so no second unit is asked for
    have hlow : isLowUnit c.toNat = false := by simp [isLowUnit]; omega
    have hhigh : isHighUnit c.toNat = false := by simp [isHighUnit]; omega
    rw [hwritten]
    simp only [List.cons_append, List.nil_append]
    rw [decode, hunit]
    simp only [hlow, hhigh, Char.ofNat_toNat]
    simp
  · rw [hwritten, List.cons_append, List.nil_append, decode]
    · rw [if_neg hbackslash]
    · intro _ _ _ _ _ h
      exact absurd h hbackslash
    · intro _ _ h
      exact absurd h hbackslash

/-- A written body means the text that it was written for. -/
theorem decode_encode (text : List Char) : decode (encode text) = some text := by
  induction text with
  | nil => rfl
  | cons c text ih =>
    have hcons : encode (c :: text) = encodeChar c ++ encode text := rfl
    rw [hcons, decode_encodeChar, ih]
    rfl

end Lineage.Json.Text

namespace Lineage.Json

/-! ## §2 Numbers -/

/-- The digits of a positive number do not start with a zero. -/
theorem head?_toDigits {n : Nat} (hn : 0 < n) : (Nat.toDigits 10 n).head? ≠ some '0' := by
  induction n using Nat.strongRecOn with
  | ind n ih =>
    rcases Nat.lt_or_ge n 10 with hsmall | hlarge
    · rw [Nat.toDigits_of_lt_base hsmall]
      have hdigit : ∀ k < 10, 0 < k → [Nat.digitChar k].head? ≠ some '0' := by decide
      exact hdigit n hsmall hn
    · rw [Nat.toDigits_of_base_le (by decide) hlarge,
        List.head?_append, List.head?_eq_some_head Nat.toDigits_ne_nil, Option.some_or,
        ← List.head?_eq_some_head]
      exact ih (n / 10) (by omega) (by omega)

theorem all_isDigit_toDigits (n : Nat) : (Nat.toDigits 10 n).all Char.isDigit = true :=
  List.all_eq_true.2 fun _ => Nat.isDigit_of_mem_toDigits (by decide) (by decide)

theorem toDigits_eq_cons (n : Nat) : ∃ d ds, Nat.toDigits 10 n = d :: ds ∧ d.isDigit = true := by
  obtain ⟨d, ds, hdigits⟩ := List.exists_cons_of_ne_nil (Nat.toDigits_ne_nil (n := n) (b := 10))
  refine ⟨d, ds, hdigits, List.all_eq_true.1 (all_isDigit_toDigits n) d ?_⟩
  rw [hdigits]
  exact List.mem_cons_self

/-- The digits of a number are read as that number. -/
theorem plainNat?_toDigits (n : Nat) : plainNat? (Nat.toDigits 10 n) = some n := by
  rcases Nat.eq_zero_or_pos n with rfl | hn
  · rw [Nat.toDigits_zero]
    rfl
  · have hhead := head?_toDigits hn
    unfold plainNat?
    split
    case h_1 hnil => exact absurd hnil Nat.toDigits_ne_nil
    case h_2 hzero => simp [hzero] at hhead
    case h_3 hzero => simp [hzero] at hhead
    case h_4 => rw [if_pos (all_isDigit_toDigits n), Nat.ofDigitChars_ten_toDigits]

/-- In a string, too, the digits of a number are written as they are. -/
theorem encode_toDigits (n : Nat) : Text.encode (Nat.toDigits 10 n) = Nat.toDigits 10 n := by
  have hdigits := all_isDigit_toDigits n
  generalize Nat.toDigits 10 n = digits at hdigits
  induction digits with
  | nil => rfl
  | cons d digits ih =>
    rw [List.all_cons, Bool.and_eq_true] at hdigits
    have hcons : Text.encode (d :: digits) = Text.encodeChar d ++ Text.encode digits := rfl
    rw [hcons, Text.encodeChar_of_isDigit hdigits.1, ih hdigits.2, List.singleton_append]

/-- A character with which a number literal could go on. -/
def goesOn (c : Char) : Bool := c.isDigit || c = '.' || c = 'e' || c = 'E'

/-- What comes after a number does not belong to it. -/
def Apart (rest : List Char) : Prop := ∀ c ∈ rest.head?, goesOn c = false

/-- A run of characters ends where the next one is of another kind. -/
theorem span_append {p : Char → Bool} {cs rest : List Char} (hcs : cs.all p = true)
    (hrest : ∀ c ∈ rest.head?, p c = false) : (cs ++ rest).span p = (cs, rest) := by
  have hall := List.all_eq_true.1 hcs
  have hnone : rest.takeWhile p = [] ∧ rest.dropWhile p = rest := by
    cases rest with
    | nil => exact ⟨rfl, rfl⟩
    | cons c rest =>
      have hc := hrest c rfl
      simp [hc]
  rw [List.span_eq_takeWhile_dropWhile, List.takeWhile_append_of_pos hall,
    List.dropWhile_append_of_pos hall, hnone.1, hnone.2, List.append_nil]

theorem scanWhole_toDigits (n : Nat) {rest : List Char} (hrest : Apart rest) :
    Token.scanWhole (Nat.toDigits 10 n ++ rest) = some (Nat.toDigits 10 n, rest) := by
  rcases Nat.eq_zero_or_pos n with rfl | hn
  · rw [Nat.toDigits_zero]
    rfl
  · have hhead := head?_toDigits hn
    have hspan : (Nat.toDigits 10 n ++ rest).span Char.isDigit = (Nat.toDigits 10 n, rest) := by
      apply span_append (all_isDigit_toDigits n)
      intro c hc
      have happart := hrest c hc
      simp only [goesOn, Bool.or_eq_false_iff] at happart
      exact happart.1.1.1
    unfold Token.scanWhole
    split
    case h_1 hzero =>
      -- the first digit would be a zero
      have hfirst := congrArg List.head? hzero
      rw [List.head?_append, List.head?_eq_some_head Nat.toDigits_ne_nil, Option.some_or,
        ← List.head?_eq_some_head] at hfirst
      exact absurd hfirst hhead
    case h_2 =>
      obtain ⟨d, ds, hdigits, -⟩ := toDigits_eq_cons n
      rw [hspan, hdigits]

/-- The digits of a number are split off as one literal. -/
theorem scanNumber_toDigits (n : Nat) {rest : List Char} (hrest : Apart rest) :
    Token.scanNumber (Nat.toDigits 10 n ++ rest) = some (Nat.toDigits 10 n, rest) := by
  obtain ⟨d, ds, hdigits, hdigit⟩ := toDigits_eq_cons n
  have hminus : d ≠ '-' := by
    rintro rfl
    exact absurd hdigit (by decide)
  have hfraction : Token.scanFraction rest = some ([], rest) := by
    unfold Token.scanFraction
    split
    case h_1 => exact absurd (hrest '.' rfl) (by decide)
    case h_2 => rfl
  have hexponent : Token.scanExponent rest = some ([], rest) := by
    unfold Token.scanExponent
    split
    case h_1 e cs =>
      have happart := hrest e rfl
      rw [if_neg]
      rintro (rfl | rfl)
      · exact absurd happart (by decide)
      · exact absurd happart (by decide)
    case h_2 => rfl
  have hwhole := scanWhole_toDigits n hrest
  unfold Token.scanNumber
  split
  rename_i sign cs hsign
  -- there is no sign in front of the digits
  have hsame : (sign, cs) = ([], Nat.toDigits 10 n ++ rest) := by
    rw [← hsign]
    split
    case h_1 hfirst =>
      rw [hdigits, List.cons_append, List.cons.injEq] at hfirst
      exact absurd hfirst.1 hminus
    case h_2 => rfl
  obtain ⟨rfl, rfl⟩ := Prod.mk.inj hsame
  simp [hwhole, hfraction, hexponent]

end Lineage.Json
