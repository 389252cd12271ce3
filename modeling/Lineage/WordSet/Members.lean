import Lineage.WordSet.Basic

/-!
# Members of word sets

What each operation of a word set does to its members, whatever the storage.  Main statements:

- `contains_insert`: inserting a number adds it and nothing else;
- `contains_union`: a union has the members of both sets and no others;
- `contains_insertAll`: inserting a list adds its members and nothing else.
-/

namespace Lineage.WordSet

/-! ## §1 Words and storage -/

/-- Growing adds zero words only. -/
theorem word_grow (s : WordSet) (bits i : Nat) : (s.grow bits).word i = s.word i := by
  simp only [word, grow, Array.getElem?_append, Array.getElem?_replicate]
  by_cases stored : i < s.words.size
  · simp [stored]
  · -- a missing word and a new one both read as zero
    simp only [stored, if_false, Array.getElem?_eq_none (Nat.le_of_not_lt stored)]
    split <;> rfl

/-- Growing for a number whose word is missing makes room for it. -/
theorem lt_size_grow {s : WordSet} {b : Nat} (_ : s.words.size ≤ b / 64) :
    b / 64 < (s.grow (b + 1)).words.size := by
  simp only [grow, grownWords, blockWords, Array.size_append, Array.size_replicate]
  omega

/-- Growing for a number of words makes room for them. -/
theorem le_size_grow (s : WordSet) (n : Nat) : n ≤ (s.grow (n * 64)).words.size := by
  simp only [grow, grownWords, blockWords, Array.size_append, Array.size_replicate]
  omega

/-- The words past the extent are zero. -/
theorem word_eq_zero {s : WordSet} {i : Nat} (h : s.extent ≤ i) : s.word i = 0 := by
  obtain ⟨⟨ws⟩⟩ := s
  simp only [extent, List.popWhile_toArray, List.size_toArray, List.length_reverse] at h
  simp only [word, List.getElem?_toArray]
  -- the words are those up to the extent, followed by zeros
  have split : ws = (ws.reverse.dropWhile (· == 0)).reverse ++
      (ws.reverse.takeWhile (· == 0)).reverse := by
    rw [← List.reverse_append, List.takeWhile_append_dropWhile, List.reverse_reverse]
  rw [split, List.getElem?_append_right (by simpa using h)]
  cases hw : (ws.reverse.takeWhile (· == 0)).reverse[i -
      (ws.reverse.dropWhile (· == 0)).reverse.length]? with
  | none => rfl
  | some w =>
    have hmem := List.mem_reverse.1 (List.mem_of_getElem? hw)
    have hzero := (List.all_eq_true.1 List.all_takeWhile) w hmem
    simpa using hzero

/-- The words in use are stored ones. -/
theorem extent_le_size (s : WordSet) : s.extent ≤ s.words.size := by
  obtain ⟨⟨ws⟩⟩ := s
  have h := (List.dropWhile_sublist (· == (0 : BitVec 64)) (l := ws.reverse)).length_le
  simpa [extent] using h

/-! ## §2 Membership after each operation -/

theorem mem_iff {s : WordSet} {b : UInt32} : b ∈ s ↔ s.contains b = true := Iff.rfl

@[simp] theorem contains_empty (b : UInt32) : empty.contains b = false := by
  simp [contains, word, empty]

@[simp] theorem contains_withCapacity (bits : Nat) (b : UInt32) :
    (withCapacity bits).contains b = false := by
  simp only [contains, word, withCapacity, Array.getElem?_replicate]
  split <;> simp

/-- Turning on a bit of a stored word adds one member. -/
private theorem contains_modify {s : WordSet} {b : UInt32} (stored : b.toNat / 64 < s.words.size)
    (c : UInt32) :
    contains ⟨s.words.modify (b.toNat / 64) (· ||| BitVec.twoPow 64 (b.toNat % 64))⟩ c =
      (decide (c = b) || s.contains c) := by
  simp only [contains, word, Array.getElem?_modify]
  by_cases hw : b.toNat / 64 = c.toNat / 64
  · -- the same word: `c` is `b` exactly if the bits agree
    have hb : c = b ↔ b.toNat % 64 = c.toNat % 64 := by
      rw [← UInt32.toNat_inj]
      omega
    rw [hw] at stored
    have hbit : c.toNat % 64 < 64 := Nat.mod_lt _ (by decide)
    simp [hw, stored, hb, hbit, Bool.or_comm, eq_comm]
  · -- another word: nothing changes, and `c` is not `b`
    have hb : c ≠ b := by
      rintro rfl
      exact hw rfl
    simp [hw, hb]

/-- Inserting a number adds it and nothing else. -/
theorem contains_insert (s : WordSet) (b c : UInt32) :
    (s.insert b).contains c = (decide (c = b) || s.contains c) := by
  unfold insert
  split
  case isTrue stored => exact contains_modify stored c
  case isFalse missing =>
    rw [contains_modify (lt_size_grow (by omega))]
    simp [contains, word_grow]

/-- A union has the members of both sets and no others. -/
theorem contains_union (s t : WordSet) (c : UInt32) :
    (s.union t).contains c = (s.contains c || t.contains c) := by
  have key (r : WordSet) (roomy : t.extent ≤ r.words.size) :
      contains ⟨r.words.mapIdx fun i w => w ||| t.word i⟩ c = (r.contains c || t.contains c) := by
    by_cases stored : c.toNat / 64 < r.words.size
    · simp [contains, word, stored]
    · have ht : t.word (c.toNat / 64) = 0 := word_eq_zero (by omega)
      simp [contains, word, stored] at ht ⊢
      simp [ht]
  unfold union
  split
  case isTrue roomy => exact key s roomy
  case isFalse =>
    rw [key _ (le_size_grow s t.extent)]
    simp [contains, word_grow]

/-- Inserting a list adds its members and nothing else. -/
theorem contains_insertAll (s : WordSet) (bs : List UInt32) (c : UInt32) :
    (s.insertAll bs).contains c = (decide (c ∈ bs) || s.contains c) := by
  unfold insertAll
  induction bs generalizing s with
  | nil => simp
  | cons b bs ih =>
    rw [List.foldl_cons, ih, contains_insert]
    simp only [List.mem_cons, Bool.decide_or]
    cases decide (c = b) <;> simp

end Lineage.WordSet
