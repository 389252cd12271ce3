import Lineage.Proofs.WordSet.History
import Lineage.Proofs.WordSet.Storage
import Mathlib.Order.Bounds.Basic

/-!
# How far the storage of word sets grows

A set foretells the storage that a call will leave it with, so that a limit can be checked before
anything is laid out.  Whether storage grows is decided twice, from bits by what is foretold and from
words by the call itself, and both decide alike, also for sets with unused words at their ends.

Storage grows to whole blocks and at least doubles.  It grows only for a number that is not stored
yet, which is then a member, so a set that has grown by its own insertions and unions never takes
more than twice the whole blocks up to its greatest member.

## Main statements

- `History.foretells_bytes`: what is foretold is what comes about;
- `leastBytes_eq`: the least storage by the words in use;
- `Tight.insert`, `Tight.union`: no more than twice the least storage;
- `Frugal.applyAll`, `grows_apply`: whole blocks, and how they grow, over any run of writes.
-/

namespace Lineage.WordSet

/-! ## §1 Storage foretold -/

/-- However two sets have come about: the storage that one foretells for an insertion, and for a
union with the other, is the storage that it then has, and no less than it had. -/
theorem History.foretells_bytes (h other : History) :
    (∀ b, (h.set.insertFresh b).2.bytes = h.set.bytesAfterInsert b ∧
      h.set.bytes ≤ h.set.bytesAfterInsert b) ∧
    (h.set.union other.set).bytes = h.set.bytesAfterUnion other.set ∧
      h.set.bytes ≤ h.set.bytesAfterUnion other.set := by
  refine ⟨fun b => ⟨?_, bytes_le_bytesToFit _ _⟩, bytes_union _ _, bytes_le_bytesToFit _ _⟩
  rw [insertFresh_snd, bytes_insert]

/-! ## §2 Words in use -/

/-- A word with a bit on is in use. -/
theorem lt_extent {s : WordSet} {i : Nat} (h : s.word i ≠ 0) : i < s.extent := by
  by_contra hpast
  exact h (word_eq_zero (Nat.le_of_not_lt hpast))

/-- The word of a member is in use. -/
theorem lt_extent_of_mem {s : WordSet} {b : UInt32} (hb : b ∈ s) : b.toNat / 64 < s.extent :=
  lt_extent fun hzero => not_on_of_word_eq_zero hzero rfl hb

/-- A set has at least as many words in use as one whose bits it has. -/
theorem extent_le_extent {s t : WordSet} (h : ∀ i, s.word i ≠ 0 → t.word i ≠ 0) :
    s.extent ≤ t.extent := by
  -- the last word in use has a bit on, which the other set has as well
  cases hextent : s.extent with
  | zero => exact Nat.zero_le _
  | succ n => exact lt_extent (h n (word_ne_zero_of_extent hextent))

private theorem or_ne_zero {v w : BitVec 64} (h : v ≠ 0 ∨ w ≠ 0) : v ||| w ≠ 0 := by
  intro hzero
  obtain ⟨hv, hw⟩ := BitVec.or_eq_zero_iff.1 hzero
  exact h.elim (· hv) (· hw)

theorem extent_le_extent_insert (s : WordSet) (b : UInt32) : s.extent ≤ (s.insert b).extent := by
  refine extent_le_extent fun i hi => ?_
  rw [word_insert]
  split
  case isTrue => exact or_ne_zero (.inl hi)
  case isFalse => exact hi

theorem lt_extent_insert (s : WordSet) (b : UInt32) : b.toNat / 64 < (s.insert b).extent := by
  apply lt_extent_of_mem
  rw [mem_iff, contains_insert, decide_eq_true rfl, Bool.true_or]

theorem extent_le_extent_union (s t : WordSet) : s.extent ≤ (s.union t).extent := by
  refine extent_le_extent fun i hi => ?_
  rw [word_union]
  exact or_ne_zero (.inl hi)

theorem extent_le_extent_union_right (s t : WordSet) : t.extent ≤ (s.union t).extent := by
  refine extent_le_extent fun i hi => ?_
  rw [word_union]
  exact or_ne_zero (.inr hi)

/-! ## §3 The least storage -/

/-- The bytes that a set takes at the least: the words up to its greatest member, in whole blocks of
eight. -/
def leastBytes (s : WordSet) : Nat := s.max?.elim 0 fun m => (m.toNat / 64 + 1 + 7) / 8 * 8 * 8

/-- The greatest member is in the last word in use. -/
theorem leastBytes_eq {s : WordSet} (hs : s.Bounded) : s.leastBytes = (s.extent + 7) / 8 * 8 * 8 := by
  unfold leastBytes
  cases hmax : s.max? with
  | none =>
    -- a word in use would have a bit on, and the set a greatest member
    have hextent : s.extent = 0 := by
      by_contra hused
      obtain ⟨n, hn⟩ := Nat.exists_eq_succ_of_ne_zero hused
      rw [max?, hn] at hmax
      cases hmax
    rw [hextent]
    rfl
  | some m =>
    obtain ⟨hon, hgreatest⟩ := on_max? hs hmax
    have hbelow : m.toNat / 64 < s.extent := lt_extent_of_mem hon
    have hlast : s.extent = m.toNat / 64 + 1 := by
      obtain ⟨n, hn⟩ := Nat.exists_eq_succ_of_ne_zero (Nat.ne_zero_of_lt hbelow)
      -- a bit of the last word in use is none past the greatest member
      obtain ⟨j, hj⟩ : ∃ j, (s.word n).getLsbD j = true := by
        by_contra hnone
        apply word_ne_zero_of_extent hn
        apply BitVec.eq_of_getLsbD_eq
        intro j _
        rw [Bool.eq_false_iff.2 fun hj => hnone ⟨j, hj⟩]
        simp
      have hbit : j < 64 := BitVec.lt_of_getLsbD hj
      have hle := hgreatest (n * 64 + j) ((on_iff_getLsbD hbit).2 hj)
      omega
    rw [Option.elim_some, hlast]

/-- The storage is at most twice what the members need. -/
def Tight (s : WordSet) : Prop := s.bytes ≤ 2 * s.leastBytes

theorem tight_empty : empty.Tight := Nat.zero_le _

/-- Storage that grows does so for a bit that was not stored, and is then at most twice what the
words up to it need. -/
private theorem bytesToFit_le {s t : WordSet} {bits : Nat} (ht : t.Bounded)
    (hs : s.bytes ≤ 2 * t.leastBytes) (hbits : bits ≤ t.extent * 64) :
    s.bytesToFit bits ≤ 2 * t.leastBytes := by
  rw [leastBytes_eq ht] at hs ⊢
  unfold bytesToFit grownWords blockWords
  -- storage that suffices is kept; what is laid out is asked for, or twice what was there
  split
  case isTrue => exact hs
  case isFalse hmissing =>
    unfold capacity at hmissing
    omega

/-- An insertion that lays out storage does so for its own number. -/
theorem Tight.insert {s : WordSet} (h : s.Tight) (hs : s.Bounded) (b : UInt32) :
    (s.insert b).Tight := by
  have hleast := extent_le_extent_insert s b
  have hnumber := lt_extent_insert s b
  unfold Tight at h ⊢
  rw [bytes_insert, bytesAfterInsert]
  -- the least storage only grows, and the number itself is among the words in use
  apply bytesToFit_le (hs.insert b)
  · rw [leastBytes_eq hs] at h
    rw [leastBytes_eq (hs.insert b)]
    omega
  · omega

/-- The storage of the other set does not count, only the words that it uses. -/
theorem Tight.union {s t : WordSet} (h : s.Tight) (hs : s.Bounded) (ht : t.Bounded) :
    (s.union t).Tight := by
  have hleast := extent_le_extent_union s t
  have hother := extent_le_extent_union_right s t
  unfold Tight at h ⊢
  rw [bytes_union, bytesAfterUnion]
  -- what is asked for is room for the words that the other set uses
  apply bytesToFit_le (hs.union ht)
  · rw [leastBytes_eq hs] at h
    rw [leastBytes_eq (hs.union ht)]
    omega
  · omega

/-! ## §4 Runs of writes -/

/-- A write leaves the storage that some number of bits asks for. -/
theorem bytes_apply (edit : Edit) (s : WordSet) : ∃ bits, (edit.apply s).bytes = s.bytesToFit bits := by
  cases edit with
  | insert b => exact ⟨_, bytes_insert s b⟩
  | union bits => exact ⟨_, bytes_union s bits.set⟩

/-- Storage is kept, or grows to at least twice what it was. -/
structure Grows (s t : WordSet) : Prop where
  keeps : s.words.size ≤ t.words.size
  doubles : s.words.size < t.words.size → 2 * s.words.size ≤ t.words.size

theorem grows_apply (edit : Edit) (s : WordSet) : s.Grows (edit.apply s) := by
  obtain ⟨bits, hbytes⟩ := bytes_apply edit s
  have htwice : 2 * s.words.size ≤ s.grownWords bits := Nat.le_max_right _ _
  unfold bytesToFit bytes at hbytes
  split at hbytes <;> exact ⟨by omega, by omega⟩

/-- The words are whole blocks, and none has been laid out but for a member. -/
structure Frugal (s : WordSet) : Prop where
  bounded : s.Bounded
  blocks : 8 ∣ s.words.size
  tight : s.Tight

theorem frugal_empty : empty.Frugal := ⟨bounded_empty, Nat.dvd_zero 8, tight_empty⟩

/-- Blocks are added to blocks: what is asked for is rounded up, and twice a number of blocks is
one too. -/
theorem Frugal.apply {s : WordSet} (h : s.Frugal) (edit : Edit) : (edit.apply s).Frugal where
  bounded := h.bounded.apply edit
  blocks := by
    obtain ⟨bits, hbytes⟩ := bytes_apply edit s
    have hblocks := h.blocks
    unfold bytesToFit grownWords blockWords bytes at hbytes
    split at hbytes <;> omega
  tight := by
    -- each kind of write is tight for a reason of its own
    cases edit with
    | insert b => exact h.tight.insert h.bounded b
    | union bits => exact h.tight.union h.bounded bits.bounded_set

theorem Frugal.applyAll {s : WordSet} (h : s.Frugal) (writes : List Edit) :
    (WordSet.applyAll writes s).Frugal := by
  induction writes generalizing s with
  | nil => exact h
  | cons edit writes ih => exact ih (h.apply edit)

theorem lt_capacity_of_mem {s : WordSet} {b : UInt32} (hb : b ∈ s) : b.toNat < s.capacity := by
  have hused := lt_extent_of_mem hb
  have hstored := extent_le_size s
  unfold capacity
  omega

/-- However a set has come about from nothing by insertions and unions, its words are whole blocks
of eight, its members fit into them, and they are at most twice the whole blocks up to the greatest
member; without members there are none.  A further call keeps the words or at least doubles them. -/
theorem blocks_of_writes {writes : List Edit} {s : WordSet} (hs : applyAll writes empty = s) :
    8 ∣ s.words.size ∧
    (∀ m, IsGreatest {b | b ∈ s} m → m.toNat < s.capacity ∧
      s.words.size ≤ 2 * ((m.toNat / 64 + 1 + 7) / 8 * 8)) ∧
    ((∀ b, b ∉ s) → s.words.size = 0) ∧
    ∀ edit : Edit, s.Grows (edit.apply s) := by
  have hfrugal : s.Frugal := hs ▸ frugal_empty.applyAll writes
  have htight : s.words.size * 8 ≤ 2 * s.leastBytes := hfrugal.tight
  refine ⟨hfrugal.blocks, ?_, ?_, fun edit => grows_apply edit s⟩
  · -- the greatest member is what the search for it finds, and that bounds the storage
    intro m hm
    have hmax : s.max? = some m := (max?_eq_some_iff hfrugal.bounded).2 hm
    rw [leastBytes, hmax, Option.elim_some] at htight
    exact ⟨lt_capacity_of_mem hm.1, by omega⟩
  · intro hnone
    have hmax : s.max? = none := (max?_eq_none_iff hfrugal.bounded).2 hnone
    rw [leastBytes, hmax, Option.elim_none] at htight
    omega

/-- Insertions far apart, and the union with a set of which most words are unused. -/
private def strewn : List Edit :=
  [.insert 70, .insert 600, .union (.insert (.withCapacity 4096) 1100), .insert 3]

private theorem max?_strewn : (applyAll strewn empty).max? = some 1100 := by
  decide +kernel

theorem blocks_of_writes_strewn : ∃ s, applyAll strewn empty = s ∧
    IsGreatest {b | b ∈ s} 1100 ∧ s.words.size ≤ 48 ∧ s.Grows (Edit.apply (.insert 5000) s) := by
  have hrun : applyAll strewn empty = applyAll strewn empty := rfl
  obtain ⟨-, hgreatest, -, hgrows⟩ := blocks_of_writes hrun
  have hmax : IsGreatest {b | b ∈ applyAll strewn empty} 1100 :=
    (max?_eq_some_iff (frugal_empty.applyAll strewn).bounded).1 max?_strewn
  have htwice : 2 * (((1100 : UInt32).toNat / 64 + 1 + 7) / 8 * 8) ≤ 48 := by decide
  exact ⟨_, rfl, hmax, Nat.le_trans (hgreatest _ hmax).2 htwice, hgrows _⟩

end Lineage.WordSet
