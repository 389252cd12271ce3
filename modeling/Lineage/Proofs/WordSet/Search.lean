import Lineage.Proofs.WordSet.Listing

/-!
# Searching word sets

The search for the least member from some number on goes word by word, and inside a word to its
lowest bit.  Of bounded sets it finds what it should:

- `next?_eq_some_iff`: an answer is the least member that is not below the number;
- `next?_eq_none_iff`: without an answer all members are below it.

The search for the greatest member starts at the last word with a bit on, and takes its highest:

- `max?_eq_some_iff`, `max?_eq_none_iff`: it finds the greatest member, if there is a member at all.
-/

namespace Lineage.WordSet

variable {s : WordSet} {lower upper i : Nat} {answer : Option UInt32}

/-! ## §1 Bits by their numbers -/

/-- The bit of a number is on.  The number can be one that no 32-bit number is. -/
def On (s : WordSet) (n : Nat) : Prop := (s.word (n / 64)).getLsbD (n % 64) = true

theorem mem_iff_on {b : UInt32} : b ∈ s ↔ s.On b.toNat := Iff.rfl

theorem not_on_of_word_eq_zero (h : s.word i = 0) {n : Nat} (hn : n / 64 = i) : ¬s.On n := by
  simp [On, hn, h]

/-- A bit of a word that is on is on in the set. -/
theorem on_iff_getLsbD {j : Nat} (hj : j < 64) :
    s.On (i * 64 + j) ↔ (s.word i).getLsbD j = true := by
  rw [On, show (i * 64 + j) / 64 = i by omega, show (i * 64 + j) % 64 = j by omega]

theorem word_eq_zero_of_size_le (h : s.words.size ≤ i) : s.word i = 0 := by
  simp [word, Array.getElem?_eq_none h]

/-- In a bounded set only bits of 32-bit numbers are on. -/
theorem Bounded.lt_of_on (h : s.Bounded) {n : Nat} (hn : s.On n) : n < UInt32.size := by
  by_contra hge
  refine not_on_of_word_eq_zero (h (n / 64) ?_) rfl hn
  simp only [UInt32.size] at hge ⊢
  omega

/-! ## §2 What is found from some number on -/

/-- An answer is the number of the lowest bit that is on from some number on; there is no answer if
none is. -/
def Finds (s : WordSet) (lower : Nat) : Option UInt32 → Prop
  | some m => lower ≤ m.toNat ∧ s.On m.toNat ∧ ∀ n, lower ≤ n → n < m.toNat → ¬s.On n
  | none => ∀ n, lower ≤ n → ¬s.On n

/-- The search may start earlier if no bit is on in between. -/
theorem Finds.of_le (h : s.Finds upper answer) (hle : lower ≤ upper)
    (hnone : ∀ n, lower ≤ n → n < upper → ¬s.On n) : s.Finds lower answer := by
  cases answer with
  | some m =>
    obtain ⟨hfrom, hon, hleast⟩ := h
    refine ⟨hle.trans hfrom, hon, fun n hlower hm => ?_⟩
    -- what is new to look at has no bit on
    by_cases hupper : upper ≤ n
    · exact hleast n hupper hm
    · exact hnone n hlower (by omega)
  | none =>
    intro n hlower
    by_cases hupper : upper ≤ n
    · exact h n hupper
    · exact hnone n hlower (by omega)

/-- The lowest bit of a word is found, if the bits of the word from `lower` on are those of `w`. -/
theorem finds_ctz (hs : s.Bounded) {w : BitVec 64} (hw : w ≠ 0) (hlower : lower / 64 = i)
    (hbits : ∀ j < 64, w.getLsbD j = true ↔ lower ≤ i * 64 + j ∧ s.On (i * 64 + j)) :
    s.Finds lower (some (UInt32.ofNat (i * 64 + w.ctz.toNat))) := by
  have hlt : w.ctz.toNat < 64 := BitVec.lt_of_getLsbD (BitVec.getLsbD_true_ctz_of_ne_zero hw)
  obtain ⟨hfrom, hon⟩ := (hbits _ hlt).1 (BitVec.getLsbD_true_ctz_of_ne_zero hw)
  have haddress := hs.lt_of_on hon
  have hm : (UInt32.ofNat (i * 64 + w.ctz.toNat)).toNat = i * 64 + w.ctz.toNat := by
    simp only [UInt32.toNat_ofNat', UInt32.size] at haddress ⊢
    omega
  simp only [Finds, hm]
  refine ⟨hfrom, hon, fun n hn hbelow hon' => ?_⟩
  -- a lower bit that is on would be one of the same word
  obtain ⟨j, hj, rfl⟩ : ∃ j < 64, n = i * 64 + j := ⟨n % 64, by omega, by omega⟩
  have hbit := (hbits j hj).2 ⟨hn, hon'⟩
  rw [BitVec.getLsbD_false_of_lt_ctz (by omega)] at hbit
  cases hbit

/-- Word by word: the search through the words from the `i`-th on looks at all that are stored. -/
theorem finds_leastFrom (hs : s.Bounded) {count : Nat} (hcount : s.words.size ≤ i + count) :
    s.Finds (i * 64) (s.leastFrom count i) := by
  -- the words left to look at become fewer, and the place moves on
  induction count generalizing i with
  | zero =>
    intro n hn
    exact not_on_of_word_eq_zero (word_eq_zero_of_size_le (by omega)) rfl
  | succ count ih =>
    unfold leastFrom
    split
    case isTrue hzero =>
      refine (ih (by omega)).of_le (by omega) fun n hn hnext => ?_
      exact not_on_of_word_eq_zero hzero (by omega)
    case isFalse hword =>
      refine finds_ctz hs hword (by omega) fun j hj => ?_
      rw [on_iff_getLsbD hj, and_iff_right (by omega)]

/-- In its own word a number is searched for among the bits from its own on. -/
theorem finds_next? (hs : s.Bounded) (b : UInt32) : s.Finds b.toNat (s.next? b) := by
  have hbits (j : Nat) (hj : j < 64) :
      (s.word (b.toNat / 64) &&& (BitVec.allOnes 64 <<< (b.toNat % 64))).getLsbD j = true ↔
        b.toNat ≤ b.toNat / 64 * 64 + j ∧ s.On (b.toNat / 64 * 64 + j) := by
    simp only [on_iff_getLsbD hj, BitVec.getLsbD_and, BitVec.getLsbD_shiftLeft,
      BitVec.getLsbD_allOnes, Bool.and_eq_true, Bool.not_eq_true', decide_eq_true_eq,
      decide_eq_false_iff_not]
    -- shifting clears the bits below the number and keeps the others
    constructor
    · rintro ⟨hon, ⟨-, hge⟩, -⟩
      exact ⟨by omega, hon⟩
    · rintro ⟨hge, hon⟩
      exact ⟨hon, ⟨hj, by omega⟩, by omega⟩
  unfold next?
  simp only
  split
  case isTrue hown =>
    refine (finds_leastFrom hs (by omega)).of_le (by omega) fun n hn hnext hon => ?_
    -- a bit of the own word that is on would be left over
    obtain ⟨j, hj, rfl⟩ : ∃ j < 64, n = b.toNat / 64 * 64 + j := ⟨n % 64, by omega, by omega⟩
    have hbit := (hbits j hj).2 ⟨hn, hon⟩
    rw [hown] at hbit
    exact absurd hbit (by simp)
  case isFalse hown => exact finds_ctz hs hown rfl hbits

/-! ## §3 The least member from some number on -/

theorem next?_eq_some_iff (hs : s.Bounded) {b m : UInt32} :
    s.next? b = some m ↔ m ∈ s ∧ b ≤ m ∧ ∀ x ∈ s, b ≤ x → m ≤ x := by
  have hfinds := finds_next? hs b
  constructor
  · intro h
    rw [h] at hfinds
    obtain ⟨hle, hon, hleast⟩ := hfinds
    refine ⟨mem_iff_on.2 hon, hle, fun x hx hbx => ?_⟩
    by_contra hlt
    exact hleast x.toNat hbx (by rwa [UInt32.not_le, UInt32.lt_iff_toNat_lt] at hlt)
      (mem_iff_on.1 hx)
  · -- the search gives one answer, and the least member is the only one that it can be
    rintro ⟨hmem, hle, hleast⟩
    cases hnext : s.next? b with
    | none =>
      rw [hnext] at hfinds
      exact absurd (mem_iff_on.1 hmem) (hfinds m.toNat hle)
    | some x =>
      rw [hnext] at hfinds
      obtain ⟨hbx, hx, hbelow⟩ := hfinds
      -- neither can be below the other
      have hge : x ≤ m := by
        by_contra hlt
        exact hbelow m.toNat hle (by rwa [UInt32.not_le, UInt32.lt_iff_toNat_lt] at hlt)
          (mem_iff_on.1 hmem)
      rw [UInt32.le_antisymm hge (hleast x (mem_iff_on.2 hx) hbx)]

theorem next?_eq_none_iff (hs : s.Bounded) {b : UInt32} :
    s.next? b = none ↔ ∀ x ∈ s, ¬b ≤ x := by
  have hfinds := finds_next? hs b
  constructor
  · intro h x hx hbx
    rw [h] at hfinds
    exact hfinds x.toNat hbx (mem_iff_on.1 hx)
  · -- an answer would be a member that is not below the number
    intro hnone
    cases hnext : s.next? b with
    | none => rfl
    | some m =>
      rw [hnext] at hfinds
      obtain ⟨hle, hon, -⟩ := hfinds
      exact absurd hle (hnone m (mem_iff_on.2 hon))

/-! ## §4 The greatest member -/

/-- The last word before the extent has a bit on. -/
theorem word_ne_zero_of_extent {n : Nat} (h : s.extent = n + 1) : s.word n ≠ 0 := by
  obtain ⟨⟨ws⟩⟩ := s
  simp only [extent, List.popWhile_toArray, List.size_toArray, List.length_reverse] at h
  simp only [word, List.getElem?_toArray]
  have hsplit : ws = (ws.reverse.dropWhile (· == 0)).reverse ++
      (ws.reverse.takeWhile (· == 0)).reverse := by
    rw [← List.reverse_append, List.takeWhile_append_dropWhile, List.reverse_reverse]
  -- read from the end, the words go on with one that has a bit on once the zeros are dropped
  cases hlast : ws.reverse.dropWhile (· == 0) with
  | nil =>
    rw [hlast] at h
    cases h
  | cons w rest =>
    have hw : ¬(w == 0) = true := by
      have hhead := List.head?_dropWhile_not (· == (0 : BitVec 64)) ws.reverse
      rw [hlast] at hhead
      simpa using hhead
    rw [hlast, List.length_cons, Nat.add_right_cancel_iff] at h
    have hget : ws[n]? = some w := by
      rw [hsplit, hlast, List.reverse_cons, List.append_assoc,
        List.getElem?_append_right (by simp [h])]
      simp [h]
    rw [hget]
    simpa using hw

/-- Past the highest bit of a word no bit is on. -/
private theorem le_of_getLsbD {w : BitVec 64} {j : Nat} (h : w.getLsbD j = true) :
    j ≤ 63 - w.clz.toNat := by
  by_contra hgt
  have hsmall : w.toNat < 2 ^ j := by
    calc w.toNat < 2 ^ (64 - w.clz.toNat) := BitVec.toNat_lt_two_pow_sub_clz
      _ ≤ 2 ^ j := Nat.pow_le_pow_right (by decide) (by omega)
  have hoff : w.getLsbD j = false := Nat.testBit_lt_two_pow hsmall
  rw [hoff] at h
  cases h

/-- An answer is the number of the highest bit that is on. -/
theorem on_max? (hs : s.Bounded) {m : UInt32} (h : s.max? = some m) :
    s.On m.toNat ∧ ∀ n, s.On n → n ≤ m.toNat := by
  unfold max? at h
  cases hextent : s.extent with
  | zero => simp [hextent] at h
  | succ n =>
    simp only [hextent, Option.some.injEq] at h
    have hword := word_ne_zero_of_extent hextent
    have hon : s.On (n * 64 + (63 - (s.word n).clz.toNat)) :=
      (on_iff_getLsbD (by omega)).2 (BitVec.getLsbD_true_clz_of_ne_zero (by decide) hword)
    have haddress := hs.lt_of_on hon
    have hm : m.toNat = n * 64 + (63 - (s.word n).clz.toNat) := by
      rw [← h, UInt32.toNat_ofNat']
      exact Nat.mod_eq_of_lt haddress
    rw [hm]
    refine ⟨hon, fun k hk => ?_⟩
    -- a bit that is on is in a word before the extent
    have hbefore : k / 64 < n + 1 := by
      by_contra hpast
      exact not_on_of_word_eq_zero (word_eq_zero (by omega)) rfl hk
    by_cases hlast : k / 64 = n
    · have hbit : k % 64 ≤ 63 - (s.word n).clz.toNat := by
        apply le_of_getLsbD
        rw [← hlast]
        exact hk
      omega
    · omega

theorem max?_eq_none_iff (hs : s.Bounded) : s.max? = none ↔ ∀ x, x ∉ s := by
  constructor
  · intro h x
    exact not_mem_of_max?_eq_none h x
  · intro hnone
    cases hmax : s.max? with
    | none => rfl
    | some m => exact absurd (mem_iff_on.2 (on_max? hs hmax).1) (hnone m)

theorem max?_eq_some_iff (hs : s.Bounded) {m : UInt32} :
    s.max? = some m ↔ m ∈ s ∧ ∀ x ∈ s, x ≤ m := by
  constructor
  · intro h
    obtain ⟨hon, hgreatest⟩ := on_max? hs h
    exact ⟨mem_iff_on.2 hon, fun x hx => hgreatest x.toNat (mem_iff_on.1 hx)⟩
  · -- a set with a member has an answer, and two greatest members are the same
    rintro ⟨hmem, hgreatest⟩
    cases hmax : s.max? with
    | none => exact absurd hmem ((max?_eq_none_iff hs).1 hmax m)
    | some x =>
      obtain ⟨hon, habove⟩ := on_max? hs hmax
      rw [UInt32.le_antisymm (hgreatest x (mem_iff_on.2 hon)) (habove m.toNat (mem_iff_on.1 hmem))]

/-- A set is found empty if it has no members. -/
theorem isEmpty_iff (hs : s.Bounded) : s.isEmpty = true ↔ ∀ x, x ∉ s := by
  have hzero : s.isEmpty = true ↔ ∀ i, s.word i = 0 := by
    unfold isEmpty
    rw [Array.all_eq_true]
    -- words that are not stored count as zero
    constructor
    · intro h i
      by_cases hi : i < s.words.size
      · simpa [word, hi] using h i hi
      · exact word_eq_zero_of_size_le (by omega)
    · intro h i hi
      simpa [word, hi] using h i
  rw [hzero]
  constructor
  · intro h x hx
    exact not_on_of_word_eq_zero (h _) rfl (mem_iff_on.1 hx)
  · intro hnone i
    apply BitVec.eq_of_getLsbD_eq
    intro j hj
    change _ = (0#64).getLsbD j
    rw [BitVec.getLsbD_zero, Bool.eq_false_iff]
    intro hbit
    -- a bit that is on has the number of a member
    have hon := (on_iff_getLsbD hj).2 hbit
    have hnumber : (UInt32.ofNat (i * 64 + j)).toNat = i * 64 + j := by
      rw [UInt32.toNat_ofNat']
      exact Nat.mod_eq_of_lt (hs.lt_of_on hon)
    exact hnone (UInt32.ofNat (i * 64 + j)) (mem_iff_on.2 (hnumber.symm ▸ hon))

end Lineage.WordSet
