import Lineage.WordSet.Members

/-!
# Storage of word sets

How much storage the set operations take, and when they take none.

- `bytes_insert`, `bytes_union`: the sizes that are foretold are those that come about;
- `insert_eq_self`: inserting a member again changes nothing, not even unused storage.
-/

namespace Lineage.WordSet

theorem size_grow (s : WordSet) (bits : Nat) :
    (s.grow bits).words.size = s.grownWords bits := by
  have hgrown : s.words.size ≤ s.grownWords bits := by
    unfold grownWords
    omega
  simp only [grow, Array.size_append, Array.size_replicate]
  omega

/-- The storage foretold for an insertion is the storage after it. -/
theorem bytes_insert (s : WordSet) (b : UInt32) : (s.insert b).bytes = s.bytesAfterInsert b := by
  -- a number fits if its word is stored
  have hfits : b.toNat / 64 < s.words.size ↔ b.toNat + 1 ≤ s.capacity := by
    unfold capacity
    omega
  unfold bytes insert bytesAfterInsert bytesToFit
  -- the call looks at words and the forecast at bits, and both see the same
  by_cases hstored : b.toNat / 64 < s.words.size
  · simp only [hstored, if_true, hfits.1 hstored, Array.size_modify]
    rfl
  · simp only [hstored, if_false, mt hfits.2 hstored, Array.size_modify, size_grow]

/-- The storage foretold for a union is the storage after it. -/
theorem bytes_union (s t : WordSet) : (s.union t).bytes = s.bytesAfterUnion t := by
  have hfits : t.extent ≤ s.words.size ↔ t.extent * 64 ≤ s.capacity := by
    unfold capacity
    omega
  unfold bytes union bytesAfterUnion bytesToFit
  by_cases hstored : t.extent ≤ s.words.size
  · simp only [hstored, if_true, hfits.1 hstored, Array.size_mapIdx]
    rfl
  · simp only [hstored, if_false, mt hfits.2 hstored, Array.size_mapIdx, size_grow]

theorem bytes_le_bytesToFit (s : WordSet) (bits : Nat) : s.bytes ≤ s.bytesToFit bits := by
  unfold bytesToFit bytes grownWords
  split <;> omega

/-- Inserting a member again changes nothing. -/
theorem insert_eq_self {s : WordSet} {b : UInt32} (h : b ∈ s) : s.insert b = s := by
  -- the word of a member is stored
  have hstored : b.toNat / 64 < s.words.size := by
    rcases Nat.lt_or_ge (b.toNat / 64) s.words.size with hstored | hmissing
    · exact hstored
    · rw [mem_iff, contains, word, Array.getElem?_eq_none hmissing] at h
      simp at h
  -- and its bit is on, so turning it on changes no word
  have hbit : (s.words[b.toNat / 64]).getLsbD (b.toNat % 64) = true := by
    simpa [mem_iff, contains, word, hstored] using h
  unfold insert
  simp only [hstored, if_true]
  congr 1
  apply Array.ext
  · simp
  · intro i hi hi'
    rw [Array.getElem_modify]
    split
    case isTrue hsame =>
      subst hsame
      apply BitVec.eq_of_getLsbD_eq
      intro j hj
      by_cases hjb : b.toNat % 64 = j
      · simp [hjb ▸ hbit]
      · simp [BitVec.getLsbD_twoPow, hjb]
    case isFalse => rfl

end Lineage.WordSet
