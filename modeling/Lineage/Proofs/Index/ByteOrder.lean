import Lineage.Index.Snapshot
import Mathlib.Data.String.Basic

/-!
# Texts in the order of their bytes

Texts are compared character by character, as lists are.  This is also the order of their UTF-8
bytes: a larger character has the larger bytes, whatever comes behind, because the byte in front
grows with the number of bytes, and those that follow are the character's digits to base 64.

## Main statements

- `textBytes_lt_iff`: the bytes of texts are ordered as the texts are;
- `compare_text_eq_lt_iff`: so is their comparison.
-/

namespace Lineage.Index

/-! ## §1 The bytes of a character -/

namespace Utf8

/-- The first bytes decide if they differ. -/
private theorem cons_lt_cons {a b : Nat} (h : a < b) (hb : b < 256) {u v : List UInt8} :
    UInt8.ofNat a :: u < UInt8.ofNat b :: v := by
  apply List.cons_lt_cons_iff.2
  left
  rw [UInt8.lt_iff_toNat_lt, UInt8.toNat_ofNat', UInt8.toNat_ofNat']
  omega

/-- A number in `places + 1` bytes: each of those behind the front holds six bits, and the front
holds what is left, on top of a mark. -/
def bytesOf (mark : Nat) : Nat → Nat → List UInt8
  | 0, n => [.ofNat (n + mark)]
  | places + 1, n => bytesOf mark places (n / 64) ++ [.ofNat (n % 64 + 128)]

/-- A larger number has larger bytes, if the front can hold it. -/
theorem bytesOf_lt {mark places m n : Nat} (h : m < n) (hfits : n / 64 ^ places + mark < 256)
    (u v : List UInt8) : bytesOf mark places m ++ u < bytesOf mark places n ++ v := by
  -- the induction takes the last byte off, which then stands in front of what comes behind
  induction places generalizing m n u v with
  | zero =>
    simp only [Nat.pow_zero, Nat.div_one] at hfits
    exact cons_lt_cons (by omega) hfits
  | succ places ih =>
    rw [Nat.pow_succ', ← Nat.div_div_eq_div_mul] at hfits
    simp only [bytesOf, List.append_assoc]
    -- either the bytes in front decide already, or they are the same and the last one does
    rcases Nat.lt_or_eq_of_le (Nat.div_le_div_right (c := 64) (Nat.le_of_lt h)) with hlt | heq
    · exact ih hlt hfits _ _
    · rw [heq]
      apply List.append_left_lt
      exact cons_lt_cons (by omega) (by omega)

/-- The front of a number's bytes. -/
theorem bytesOf_eq_cons (mark places n : Nat) :
    ∃ rest, bytesOf mark places n = .ofNat (n / 64 ^ places + mark) :: rest := by
  induction places generalizing n with
  | zero => exact ⟨[], by simp [bytesOf]⟩
  | succ places ih =>
    obtain ⟨rest, hrest⟩ := ih (n / 64)
    refine ⟨rest ++ [.ofNat (n % 64 + 128)], ?_⟩
    rw [bytesOf, hrest, List.cons_append, Nat.div_div_eq_div_mul, ← Nat.pow_succ']

/-- How many bytes of a character stand behind the one in front. -/
def placesBehind (n : Nat) : Nat :=
  if n ≤ 0x7f then 0 else if n ≤ 0x7ff then 1 else if n ≤ 0xffff then 2 else 3

/-- The mark of the byte in front, which tells how many follow. -/
def frontMark (places : Nat) : Nat := [0, 0xc0, 0xe0, 0xf0].getD places 0

/-- The byte in front. -/
def front (n : Nat) : Nat := n / 64 ^ placesBehind n + frontMark (placesBehind n)

theorem front_lt {n : Nat} (h : n < 0x110000) : front n < 256 := by
  unfold front placesBehind
  split_ifs <;> simp [frontMark] <;> omega

/-- The front of a character tells how many bytes it has; more of them go with a larger front. -/
theorem front_lt_front {m n : Nat} (h : m < n) (hplaces : placesBehind m ≠ placesBehind n)
    (hn : n < 0x110000) : front m < front n := by
  -- one case for each pair of lengths; the marks are further apart than the numbers behind
  unfold front placesBehind at *
  split_ifs at * <;> simp_all [frontMark] <;> omega

theorem toNat_lt (c : Char) : c.toNat < 0x110000 := by
  have hvalid := c.valid
  simp only [UInt32.isValidChar, Nat.isValidChar] at hvalid
  unfold Char.toNat
  omega

/-- The bytes of a character are those of its number. -/
theorem utf8EncodeChar_eq (c : Char) : String.utf8EncodeChar c =
    bytesOf (frontMark (placesBehind c.toNat)) (placesBehind c.toNat) c.toNat := by
  have hc := toNat_lt c
  -- the front holds what is left of the number, so nothing is cut off there
  have htwo (h : c.toNat ≤ 0x7ff) : c.toNat / 64 % 32 = c.toNat / 64 := by omega
  have hthree (h : c.toNat ≤ 0xffff) : c.toNat / 4096 % 16 = c.toNat / 4096 := by omega
  have hfour : c.toNat / 262144 % 8 = c.toNat / 262144 := by omega
  unfold String.utf8EncodeChar placesBehind
  simp only [show c.val.toNat = c.toNat from rfl]
  split_ifs with hone htwo' hthree'
  · simp [bytesOf, frontMark]
  · simp [bytesOf, frontMark, htwo htwo']
  · simp [bytesOf, frontMark, hthree hthree', Nat.div_div_eq_div_mul]
  · simp [bytesOf, frontMark, hfour, Nat.div_div_eq_div_mul]

/-- The byte in front of a character. -/
theorem utf8EncodeChar_eq_cons (c : Char) :
    ∃ rest, String.utf8EncodeChar c = .ofNat (front c.toNat) :: rest := by
  rw [utf8EncodeChar_eq]
  exact bytesOf_eq_cons ..

/-- A larger character has larger bytes. -/
theorem utf8EncodeChar_lt {c d : Char} (h : c < d) (u v : List UInt8) :
    String.utf8EncodeChar c ++ u < String.utf8EncodeChar d ++ v := by
  have hlt : c.toNat < d.toNat := h
  have hfits := front_lt (toNat_lt d)
  -- with as many bytes they are digits to one base; otherwise the first bytes decide
  by_cases hplaces : placesBehind c.toNat = placesBehind d.toNat
  · rw [utf8EncodeChar_eq, utf8EncodeChar_eq, hplaces]
    exact bytesOf_lt hlt hfits u v
  · obtain ⟨rest, hrest⟩ := utf8EncodeChar_eq_cons c
    obtain ⟨rest', hrest'⟩ := utf8EncodeChar_eq_cons d
    have hfront := front_lt_front hlt hplaces (toNat_lt d)
    rw [hrest, hrest', List.cons_append, List.cons_append]
    exact cons_lt_cons hfront hfits

end Utf8

/-! ## §2 The bytes of a text -/

theorem textBytes_eq (s : String) : textBytes s = s.toList.flatMap String.utf8EncodeChar := by
  rw [textBytes, String.toUTF8_eq_toByteArray, ← String.utf8Encode_toList, List.utf8Encode,
    List.data_toByteArray]

/-- A text that comes before another has the smaller bytes. -/
theorem textBytes_lt {s t : String} (h : s < t) : textBytes s < textBytes t := by
  rw [textBytes_eq, textBytes_eq]
  rw [String.lt_iff_toList_lt] at h
  generalize s.toList = cs at h
  generalize t.toList = ds at h
  -- both are read up to the first character that differs
  induction cs generalizing ds with
  | nil =>
    cases ds with
    | nil => exact absurd h (List.lt_irrefl [])
    | cons d ds =>
      obtain ⟨b, bs, hbytes⟩ := List.exists_cons_of_ne_nil (String.utf8EncodeChar_ne_nil (c := d))
      rw [List.flatMap_nil, List.flatMap_cons, hbytes]
      exact List.nil_lt_cons _ _
  | cons c cs ih =>
    cases ds with
    | nil => exact absurd h (List.not_lt_nil _)
    | cons d ds =>
      rw [List.flatMap_cons, List.flatMap_cons]
      rcases List.cons_lt_cons_iff.1 h with hlt | ⟨rfl, hrest⟩
      · exact Utf8.utf8EncodeChar_lt hlt _ _
      · exact List.append_left_lt (ih ds hrest)

/-- The bytes of texts are ordered as the texts are. -/
theorem textBytes_lt_iff {s t : String} : textBytes s < textBytes t ↔ s < t := by
  refine ⟨fun h => ?_, textBytes_lt⟩
  rcases lt_trichotomy s t with hlt | rfl | hgt
  · exact hlt
  · exact absurd h (List.lt_irrefl _)
  · exact absurd h (List.lt_asymm (textBytes_lt hgt))

theorem compare_text_eq_lt_iff {s t : String} :
    compare s t = .lt ↔ textBytes s < textBytes t := by
  rw [textBytes_lt_iff]
  exact compareOfLessAndEq_eq_lt

end Lineage.Index
