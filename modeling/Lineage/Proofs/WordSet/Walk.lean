import Lineage.Proofs.WordSet.Listing
import Lineage.WordSet.Cursor
import Mathlib.Data.List.Pairwise

/-!
# Walks give the listing

A walk over a word set gives its members one at a time by clearing the lowest bit that is left.

- `bitsOn_eq_cons`: clearing the lowest bit takes the first one off the bits that are on;
- `ahead_next`: a question gives the first of the members that are still to come, and leaves the
  others;
- `take_cursor`: a walk gives the members as they are listed, and then comes to its end.
-/

namespace Lineage.WordSet

/-! ## §1 Clearing the lowest bit -/

/-- A number with lowest bit `c` is an odd multiple of the power of two that the bit stands for. -/
private theorem exists_odd_mul {w : BitVec 64} (hw : w ≠ 0) :
    ∃ k, w.toNat = 2 ^ w.ctz.toNat * (2 * k + 1) := by
  have hon : w.toNat.testBit w.ctz.toNat = true := BitVec.getLsbD_true_ctz_of_ne_zero hw
  -- no bit below the lowest one is on, so the power divides the number
  have hlow : w.toNat % 2 ^ w.ctz.toNat = 0 := by
    apply Nat.eq_of_testBit_eq
    intro j
    rw [Nat.testBit_mod_two_pow, Nat.zero_testBit]
    by_cases hj : j < w.ctz.toNat
    · have hoff : w.toNat.testBit j = false := BitVec.getLsbD_false_of_lt_ctz hj
      simp [hoff]
    · simp [hj]
  -- and the bit itself is on, so what is left is odd
  have hodd : w.toNat / 2 ^ w.ctz.toNat % 2 = 1 := by
    have hbit := Nat.testBit_div_two_pow (n := w.ctz.toNat) w.toNat 0
    rw [Nat.zero_add, hon, Nat.testBit_zero, decide_eq_true_eq] at hbit
    exact hbit
  refine ⟨w.toNat / 2 ^ w.ctz.toNat / 2, ?_⟩
  have hparts := Nat.div_add_mod w.toNat (2 ^ w.ctz.toNat)
  rw [hlow, Nat.add_zero] at hparts
  rw [show 2 * (w.toNat / 2 ^ w.ctz.toNat / 2) + 1 = w.toNat / 2 ^ w.ctz.toNat by omega]
  exact hparts.symm

/-- Of the bits that are on, `w &&& (w - 1)` has all but the lowest. -/
theorem getLsbD_and_pred {w : BitVec 64} (hw : w ≠ 0) (j : Nat) :
    (w &&& (w - 1)).getLsbD j = (w.getLsbD j && decide (j ≠ w.ctz.toNat)) := by
  obtain ⟨k, hk⟩ := exists_odd_mul hw
  generalize w.ctz.toNat = c at hk
  have hpow : 0 < 2 ^ c := Nat.two_pow_pos c
  have hone : (1 : BitVec 64) ≤ w := by
    rw [BitVec.le_def, hk]
    exact Nat.mul_pos hpow (by omega)
  -- below the lowest bit all bits of `w - 1` are on, and above it they are those of `w`
  have hpred : (w - 1).toNat = 2 ^ c * (2 * k) + (2 ^ c - 1) := by
    rw [BitVec.toNat_sub_of_le hone, hk, Nat.mul_add, Nat.mul_one]
    exact Nat.add_sub_assoc hpow _
  have hw' : w.getLsbD j = (2 ^ c * (2 * k + 1) + 0).testBit j := by
    rw [Nat.add_zero, ← hk]
    rfl
  have hpred' : (w - 1).getLsbD j = (2 ^ c * (2 * k) + (2 ^ c - 1)).testBit j := by
    rw [← hpred]
    rfl
  rw [BitVec.getLsbD_and, hw', hpred', Nat.testBit_two_pow_mul_add _ hpow,
    Nat.testBit_two_pow_mul_add _ (Nat.sub_lt hpow Nat.one_pos)]
  by_cases hj : j < c
  · simp [hj]
  · obtain ⟨i, rfl⟩ := Nat.exists_eq_add_of_le (Nat.le_of_not_lt hj)
    simp only [hj, if_false, Nat.add_sub_cancel_left]
    cases i with
    | zero => simp [Nat.testBit_zero]
    | succ i =>
      have hhalf : (2 * k + 1) / 2 = 2 * k / 2 := by omega
      simp [Nat.testBit_succ, hhalf]

/-- Of a word with a bit on the lowest one is listed first, and then those that are left once it is
cleared. -/
theorem bitsOn_eq_cons {w : BitVec 64} (hw : w ≠ 0) :
    bitsOn w = w.ctz.toNat :: bitsOn (w &&& (w - 1)) := by
  have hmem (j : Nat) : j ∈ bitsOn (w &&& (w - 1)) ↔ j ∈ bitsOn w ∧ j ≠ w.ctz.toNat := by
    rw [mem_bitsOn, mem_bitsOn, getLsbD_and_pred hw, Bool.and_eq_true, decide_eq_true_eq]
  have hlowest : w.ctz.toNat ∈ bitsOn w :=
    mem_bitsOn.2 (BitVec.getLsbD_true_ctz_of_ne_zero hw)
  -- both lists ascend, so it is enough to compare their members
  refine (bitsOn_pairwise_lt w).eq_of_mem_iff ?ascending fun j => ?same
  case ascending =>
    refine List.pairwise_cons.2 ⟨fun j hj => ?_, bitsOn_pairwise_lt _⟩
    obtain ⟨hon, hne⟩ := (hmem j).1 hj
    -- no bit below the lowest one is on
    by_contra hge
    have hoff := BitVec.getLsbD_false_of_lt_ctz (x := w) (i := j) (by omega)
    rw [mem_bitsOn, hoff] at hon
    cases hon
  case same =>
    rw [List.mem_cons, hmem]
    by_cases hj : j = w.ctz.toNat
    · simp [hj, hlowest]
    · simp [hj]

/-! ## §2 The members that are still to come -/

namespace Cursor

variable {c : Cursor}

/-- The members that a walk is still to give. -/
def ahead (c : Cursor) : List UInt32 :=
  ((c.bits :: c.rest).zipIdx c.index).flatMap fun (w, i) =>
    (bitsOn w).map fun j => UInt32.ofNat (i * 64 + j)

/-- Words without bits have no members to come. -/
theorem ahead_settle (bits : BitVec 64) (index : Nat) (rest : List (BitVec 64)) :
    (settle bits index rest).ahead = ahead ⟨bits, index, rest⟩ := by
  -- the walk passes over words without bits until it comes to one that has some
  induction rest generalizing bits index with
  | nil => rfl
  | cons w ws ih =>
    unfold settle
    split
    case isTrue hzero =>
      rw [ih]
      simp [ahead, hzero, bitsOn]
    case isFalse => rfl

/-- A walk comes to rest at a word without bits only at the end. -/
theorem rest_settle {bits : BitVec 64} {index : Nat} {rest : List (BitVec 64)}
    (h : (settle bits index rest).bits = 0) : (settle bits index rest).rest = [] := by
  induction rest generalizing bits index with
  | nil => rfl
  | cons w ws ih =>
    unfold settle at h ⊢
    split
    case isTrue hzero =>
      rw [if_pos hzero] at h
      exact ih h
    case isFalse hword =>
      rw [if_neg hword] at h
      exact absurd h hword

/-- A question gives the first member that is still to come, and the others come after it. -/
theorem ahead_next (c : Cursor) : c.next.1 = c.ahead.head? ∧ c.next.2.ahead = c.ahead.tail := by
  have hsame : c.ahead = (settle c.bits c.index c.rest).ahead := (ahead_settle ..).symm
  rw [hsame, next]
  -- a walk that has settled on a word without bits is at its end
  split
  case isTrue hnone =>
    simp [ahead, hnone, rest_settle hnone, bitsOn]
  case isFalse hsome =>
    simp [ahead, bitsOn_eq_cons hsome]

theorem take_eq_take_ahead (c : Cursor) (n : Nat) : c.take n = c.ahead.take n := by
  -- one question less is left after each answer
  induction n generalizing c with
  | zero => rfl
  | succ n ih =>
    obtain ⟨hhead, htail⟩ := ahead_next c
    unfold take
    -- the question gives what is to come first, or nothing is to come
    cases hnext : c.next with
    | mk answer c' =>
      rw [hnext] at hhead htail
      cases hahead : c.ahead with
      | nil =>
        rw [hahead] at hhead
        cases hhead
        rfl
      | cons b bs =>
        rw [hahead] at hhead htail
        cases hhead
        change b :: c'.take n = (b :: bs).take (n + 1)
        rw [ih, htail, List.take_succ_cons, List.tail_cons]

end Cursor

/-! ## §3 Walks over sets -/

theorem ahead_cursor (s : WordSet) : s.cursor.ahead = s.toList := by
  unfold cursor toList
  cases s.words.toList with
  | nil => simp [Cursor.ahead, bitsOn]
  | cons w ws => rfl

/-- A walk gives the members as they are listed, and then comes to its end. -/
theorem take_cursor (s : WordSet) (n : Nat) : s.cursor.take n = s.toList.take n := by
  rw [Cursor.take_eq_take_ahead, ahead_cursor]

end Lineage.WordSet
