import Lineage.WordSet.Members
import Mathlib.Data.Set.Card

/-!
# Listing the members of word sets

A word set can store more words than 32-bit numbers can address, and a bit on past the last
address would be read as another number.  `Bounded` says that there is none; every operation keeps
it.  Of bounded sets the listing is exact:

- `mem_toList`: the list has exactly the members;
- `toList_pairwise_lt`: it is strictly ascending;
- `ncard_members`: `cardinality` is the number of members.
-/

namespace Lineage

/-- Numbering a list numbers it in ascending order. -/
theorem zipIdx_pairwise_lt {α : Type} (xs : List α) :
    xs.zipIdx.Pairwise fun a b => a.2 < b.2 := by
  rw [← List.pairwise_map (f := Prod.snd) (R := (· < ·)), List.zipIdx_map_snd]
  exact List.pairwise_lt_range'

namespace WordSet

/-! ## §1 Words after each operation -/

/-- Turning a bit of a stored word on. -/
private theorem word_modify {s : WordSet} {n : Nat} (stored : n < s.words.size)
    (f : BitVec 64 → BitVec 64) (i : Nat) :
    word ⟨s.words.modify n f⟩ i = if n = i then f (s.word i) else s.word i := by
  simp only [word, Array.getElem?_modify]
  -- the word that is changed is stored, so the change finds it
  by_cases hi : n = i
  · subst hi
    simp [stored]
  · simp [hi]

theorem word_insert (s : WordSet) (b : UInt32) (i : Nat) :
    (s.insert b).word i =
      if b.toNat / 64 = i then s.word i ||| BitVec.twoPow 64 (b.toNat % 64) else s.word i := by
  unfold insert
  split
  case isTrue stored => exact word_modify stored _ i
  case isFalse missing =>
    rw [word_modify (lt_size_grow (by omega))]
    simp only [word_grow]

theorem word_union (s t : WordSet) (i : Nat) : (s.union t).word i = s.word i ||| t.word i := by
  have key (r : WordSet) (roomy : t.extent ≤ r.words.size) :
      word ⟨r.words.mapIdx fun i w => w ||| t.word i⟩ i = r.word i ||| t.word i := by
    by_cases stored : i < r.words.size
    · simp [word, stored]
    · -- past the storage both sides are zero
      have ht : t.word i = 0 := word_eq_zero (by omega)
      simp only [ht]
      simp [word, stored]
  unfold union
  split
  case isTrue roomy => exact key s roomy
  case isFalse => rw [key _ (le_size_grow s t.extent), word_grow]

/-! ## §2 No bit past the last address -/

/-- No bit is on past the word of the greatest 32-bit number. -/
def Bounded (s : WordSet) : Prop := ∀ i, UInt32.size / 64 ≤ i → s.word i = 0

theorem bounded_empty : empty.Bounded := by
  intro i _
  simp [word, empty]

theorem Bounded.insert {s : WordSet} (h : s.Bounded) (b : UInt32) : (s.insert b).Bounded := by
  intro i hi
  -- no number is so great that its word is past the last one
  have hb : b.toNat / 64 ≠ i := by
    have := b.toNat_lt_size
    simp only [UInt32.size] at this hi
    omega
  rw [word_insert, if_neg hb]
  exact h i hi

theorem Bounded.union {s t : WordSet} (hs : s.Bounded) (ht : t.Bounded) : (s.union t).Bounded := by
  intro i hi
  rw [word_union, hs i hi, ht i hi]
  rfl

theorem Bounded.insertAll {s : WordSet} (h : s.Bounded) (bs : List UInt32) :
    (s.insertAll bs).Bounded := by
  unfold WordSet.insertAll
  -- number by number, from whatever set is left
  induction bs generalizing s with
  | nil => exact h
  | cons b bs ih => exact ih (h.insert b)

/-! ## §3 The listing -/

/-- The positions of the bits that are on are listed, and no others. -/
theorem mem_bitsOn {w : BitVec 64} {j : Nat} : j ∈ bitsOn w ↔ w.getLsbD j = true := by
  unfold bitsOn
  split
  case isTrue hw => simp [hw]
  case isFalse =>
    simp only [List.mem_filter, List.mem_range, and_iff_right_iff_imp]
    exact BitVec.lt_of_getLsbD

theorem bitsOn_pairwise_lt (w : BitVec 64) : (bitsOn w).Pairwise (· < ·) := by
  unfold bitsOn
  split
  case isTrue => exact .nil
  case isFalse => exact List.pairwise_lt_range.filter _

/-- A listed bit of a bounded set has an address, and reading it back gives word and bit. -/
private theorem toNat_address {s : WordSet} (h : s.Bounded) {i j : Nat}
    (hj : (s.word i).getLsbD j = true) : (UInt32.ofNat (i * 64 + j)).toNat = i * 64 + j := by
  have hbit : j < 64 := BitVec.lt_of_getLsbD hj
  -- past the greatest address all words are zero
  have hword : i < UInt32.size / 64 := by
    by_contra hge
    rw [h i (by omega)] at hj
    simp at hj
  simp only [UInt32.size] at hword
  simp only [UInt32.toNat_ofNat']
  omega

/-- The words of the listing are those that `word` reads. -/
private theorem word_of_mem_zipIdx {s : WordSet} {p : BitVec 64 × Nat}
    (hp : p ∈ s.words.toList.zipIdx) : s.word p.2 = p.1 := by
  have hget : s.words[p.2]? = some p.1 := by
    simpa using List.mk_mem_zipIdx_iff_getElem?.1 hp
  simp [word, hget]

theorem mem_toList {s : WordSet} (h : s.Bounded) {b : UInt32} : b ∈ s.toList ↔ b ∈ s := by
  simp only [toList, List.mem_flatMap, List.mem_map, Prod.exists, mem_bitsOn, mem_iff, contains]
  -- a number is its word and its bit, and taking it apart gives both back
  constructor
  · rintro ⟨w, i, hw, j, hj, rfl⟩
    have hstored : s.word i = w := word_of_mem_zipIdx hw
    rw [← hstored] at hj
    have hbit : j < 64 := BitVec.lt_of_getLsbD hj
    rw [toNat_address h hj, show (i * 64 + j) / 64 = i by omega,
      show (i * 64 + j) % 64 = j by omega]
    exact hj
  · intro hb
    refine ⟨s.word (b.toNat / 64), b.toNat / 64, ?_, b.toNat % 64, hb, ?_⟩
    · -- a word with a bit on is stored
      rw [List.mk_mem_zipIdx_iff_getElem?]
      cases hget : s.words[b.toNat / 64]? with
      | none => simp [word, hget] at hb
      | some w => simp [word, hget]
    · rw [show b.toNat / 64 * 64 + b.toNat % 64 = b.toNat by omega, UInt32.ofNat_toNat]

theorem toList_pairwise_lt {s : WordSet} (h : s.Bounded) : s.toList.Pairwise (· < ·) := by
  have address {p : BitVec 64 × Nat} (hp : p ∈ s.words.toList.zipIdx) {j : Nat}
      (hj : j ∈ bitsOn p.1) : (UInt32.ofNat (p.2 * 64 + j)).toNat = p.2 * 64 + j := by
    rw [mem_bitsOn, ← word_of_mem_zipIdx hp] at hj
    exact toNat_address h hj
  unfold toList
  rw [List.pairwise_flatMap]
  constructor
  · -- inside one word
    intro p hp
    rw [List.pairwise_map]
    apply (bitsOn_pairwise_lt p.1).imp_of_mem
    intro j k hj hk hjk
    rw [UInt32.lt_iff_toNat_lt, address hp hj, address hp hk]
    omega
  · -- across words
    apply (zipIdx_pairwise_lt s.words.toList).imp_of_mem
    intro p q hp hq hpq x hx y hy
    obtain ⟨j, hj, rfl⟩ := List.mem_map.1 hx
    obtain ⟨k, hk, rfl⟩ := List.mem_map.1 hy
    have hbit : j < 64 := BitVec.lt_of_getLsbD (mem_bitsOn.1 hj)
    rw [UInt32.lt_iff_toNat_lt, address hp hj, address hq hk]
    omega

/-- Ascending numbers are read back from a set as they were put in. -/
theorem toList_ofList {bs : List UInt32} (h : bs.Pairwise (· < ·)) : (ofList bs).toList = bs := by
  have hbounded : (ofList bs).Bounded := bounded_empty.insertAll bs
  -- ascending lists with the same members are the same
  refine (toList_pairwise_lt hbounded).eq_of_mem_iff h fun b => ?_
  rw [mem_toList hbounded]
  simp [mem_iff, ofList, contains_insertAll]

theorem toList_nodup {s : WordSet} (h : s.Bounded) : s.toList.Nodup :=
  (toList_pairwise_lt h).imp fun hlt => UInt32.ne_of_lt hlt

/-- `cardinality` is the length of the listing. -/
theorem cardinality_eq_length (s : WordSet) : s.cardinality = s.toList.length := by
  -- the listing goes by the words with their places, the count by the words alone
  have hwords : s.words.toList.map (fun w => (bitsOn w).length) =
      s.words.toList.zipIdx.map fun p => (bitsOn p.1).length := by
    conv_lhs => rw [← List.zipIdx_map_fst 0 s.words.toList]
    rw [List.map_map]
    rfl
  unfold cardinality toList
  rw [hwords, List.length_flatMap]
  simp only [List.length_map]
  rfl

/-- `cardinality` is the number of members. -/
theorem ncard_members {s : WordSet} (h : s.Bounded) : {b | b ∈ s}.ncard = s.cardinality := by
  have hset : {b | b ∈ s} = (s.toList.toFinset : Set UInt32) := by
    ext b
    simp [mem_toList h]
  rw [hset, Set.ncard_coe_finset, List.toFinset_card_of_nodup (toList_nodup h),
    cardinality_eq_length]

/-- A set without a greatest member has no members. -/
theorem not_mem_of_max?_eq_none {s : WordSet} (h : s.max? = none) (b : UInt32) : b ∉ s := by
  have hextent : s.extent = 0 := by
    unfold max? at h
    split at h
    case h_1 hzero => exact hzero
    case h_2 => exact absurd h (by simp)
  have hword : s.word (b.toNat / 64) = 0 := word_eq_zero (by omega)
  simp [mem_iff, contains, hword]

end WordSet

end Lineage
