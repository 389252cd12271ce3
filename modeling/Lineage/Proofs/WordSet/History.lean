import Lineage.Proofs.WordSet.Search
import Lineage.Proofs.WordSet.Walk
import Mathlib.Data.Finset.Card

/-!
# Word sets are finite sets

However a word set has come about, all that it can be asked is answered as the finite set of numbers
would answer that the same operations lead to.  Histories are trees: a set that is copied, or added
to several others, has its own history in each place.

## Main statements

- `bounded_set`: no history turns on a bit that no 32-bit number has;
- `mem_set_iff`: the members of a set are those that its history says;
- `shows_members`: all that a set can be asked;
- `mem_applyAll`: what writes through a reference bring in.
-/

namespace Lineage.WordSet

/-! ## §1 Histories -/

/-- How a word set has come about. -/
inductive History where
  | empty
  | withCapacity (bits : Nat)
  | ofList (bs : List UInt32)
  | clone (h : History)
  | insert (h : History) (b : UInt32)
  | union (h other : History)

namespace History

/-- The set that operations lead to. -/
def set : History → WordSet
  | .empty => .empty
  | .withCapacity bits => .withCapacity bits
  | .ofList bs => .ofList bs
  | .clone h => h.set
  | .insert h b => (h.set.insertFresh b).2
  | .union h other => h.set.union other.set

/-- The numbers that the set ought to have as its members. -/
def members : History → Finset UInt32
  | .empty => ∅
  | .withCapacity _ => ∅
  | .ofList bs => bs.toFinset
  | .clone h => h.members
  | .insert h b => Insert.insert b h.members
  | .union h other => h.members ∪ other.members

end History

/-! ## §2 What a set tells -/

/-- All that a word set can be asked is answered as a finite set would answer it. -/
structure Shows (s : WordSet) (members : Finset UInt32) : Prop where
  contains : ∀ b, s.contains b = true ↔ b ∈ members
  cardinality : s.cardinality = members.card
  isEmpty : s.isEmpty = true ↔ members = ∅
  next? : ∀ b m, s.next? b = some m ↔ m ∈ members ∧ b ≤ m ∧ ∀ x ∈ members, b ≤ x → m ≤ x
  next?_none : ∀ b, s.next? b = none ↔ ∀ x ∈ members, ¬b ≤ x
  max? : ∀ m, s.max? = some m ↔ m ∈ members ∧ ∀ x ∈ members, x ≤ m
  max?_none : s.max? = none ↔ members = ∅
  mem_toList : ∀ b, b ∈ s.toList ↔ b ∈ members
  ascending : s.toList.Pairwise (· < ·)
  /-- A walk gives what is listed, and ends. -/
  walk : ∀ n, s.cursor.take n = s.toList.take n
  /-- Every bit that is on has the number of a member, in full. -/
  address : ∀ n, s.On n → (UInt32.ofNat n).toNat = n ∧ UInt32.ofNat n ∈ members

/-- Of a bounded set it is enough to know the members. -/
theorem Bounded.shows {s : WordSet} (hs : s.Bounded) {members : Finset UInt32}
    (h : ∀ b, b ∈ s ↔ b ∈ members) : s.Shows members where
  contains := h
  cardinality := by
    have hset : {b | b ∈ s} = (members : Set UInt32) := by
      ext b
      exact h b
    rw [← ncard_members hs, hset, Set.ncard_coe_finset]
  isEmpty := by
    rw [isEmpty_iff hs, Finset.eq_empty_iff_forall_notMem]
    simp only [h]
  next? b m := by
    rw [next?_eq_some_iff hs]
    simp only [h]
  next?_none b := by
    rw [next?_eq_none_iff hs]
    simp only [h]
  max? m := by
    rw [max?_eq_some_iff hs]
    simp only [h]
  max?_none := by
    rw [max?_eq_none_iff hs, Finset.eq_empty_iff_forall_notMem]
    simp only [h]
  mem_toList b := by rw [WordSet.mem_toList hs, h]
  ascending := toList_pairwise_lt hs
  walk := take_cursor s
  -- a bit past the last number is off, so the number comes back in full
  address n hn := by
    have hnumber : (UInt32.ofNat n).toNat = n := by
      rw [UInt32.toNat_ofNat']
      exact Nat.mod_eq_of_lt (hs.lt_of_on hn)
    refine ⟨hnumber, ?_⟩
    rw [← h, mem_iff_on, hnumber]
    exact hn

/-! ## §3 Every history -/

theorem bounded_withCapacity (bits : Nat) : (withCapacity bits).Bounded := by
  intro i _
  simp only [word, withCapacity, Array.getElem?_replicate]
  split <;> rfl

/-- The answer of an insertion is read off the bit before it is turned on. -/
theorem insertFresh_fst (s : WordSet) (b : UInt32) : (s.insertFresh b).1 = !s.contains b := by
  -- laying out storage leaves all bits as they are
  have hword : (if b.toNat / 64 < s.words.size then s else s.grow (b.toNat + 1)).word
      (b.toNat / 64) = s.word (b.toNat / 64) := by
    split
    case isTrue => rfl
    case isFalse => exact word_grow ..
  have hbit : b.toNat % 64 < 64 := Nat.mod_lt _ (by decide)
  simp only [insertFresh, hword, contains]
  cases hon : (s.word (b.toNat / 64)).getLsbD (b.toNat % 64) with
  | true =>
    rw [Bool.not_true, beq_eq_false_iff_ne]
    intro hzero
    -- the bit of the mask is on in both
    have hand : (s.word (b.toNat / 64) &&& BitVec.twoPow 64 (b.toNat % 64)).getLsbD
        (b.toNat % 64) = true := by
      simp [hon, hbit]
    rw [hzero] at hand
    simp at hand
  | false =>
    rw [Bool.not_false, beq_iff_eq]
    apply BitVec.eq_of_getLsbD_eq
    intro j hj
    by_cases hjb : b.toNat % 64 = j
    · simp [← hjb, hon]
    · simp [BitVec.getLsbD_twoPow, hjb]

theorem insertFresh_snd (s : WordSet) (b : UInt32) : (s.insertFresh b).2 = s.insert b := rfl

namespace History

/-- No history turns on a bit that no 32-bit number has. -/
theorem bounded_set (h : History) : h.set.Bounded := by
  -- each operation only turns on bits of 32-bit numbers or of another bounded set
  induction h with
  | empty => exact bounded_empty
  | withCapacity bits => exact bounded_withCapacity bits
  | ofList bs => exact bounded_empty.insertAll bs
  | clone h ih => exact ih
  | insert h b ih => exact ih.insert b
  | union h other ih ihOther => exact ih.union ihOther

/-- The members of a set are those that its history says. -/
theorem mem_set_iff (h : History) (b : UInt32) : b ∈ h.set ↔ b ∈ h.members := by
  -- each operation does to the bits what it does to the numbers
  induction h with
  | empty => simp [set, members, mem_iff]
  | withCapacity bits => simp [set, members, mem_iff]
  | ofList bs => simp [set, members, mem_iff, WordSet.ofList, contains_insertAll]
  | clone h ih => exact ih
  | insert h c ih =>
    rw [set, members, insertFresh_snd, mem_iff, contains_insert, Bool.or_eq_true,
      decide_eq_true_eq, ← mem_iff, ih, Finset.mem_insert]
  | union h other ih ihOther =>
    rw [set, members, mem_iff, contains_union, Bool.or_eq_true, ← mem_iff, ← mem_iff, ih, ihOther,
      Finset.mem_union]

/-- However a word set has come about, it answers as the finite set of its members, and an insertion
tells whether it adds a member. -/
theorem shows_members (h : History) :
    h.set.Shows h.members ∧ ∀ b, (h.set.insertFresh b).1 = true ↔ b ∉ h.members := by
  refine ⟨h.bounded_set.shows h.mem_set_iff, fun b => ?_⟩
  rw [insertFresh_fst, Bool.not_eq_true', ← Bool.not_eq_true, ← mem_iff, mem_set_iff]

end History

/-! ## §4 Writing through a reference -/

/-- What can be written into a set through a reference to it. -/
inductive Edit where
  | insert (b : UInt32)
  | union (bits : History)

/-- The set that a write leaves. -/
def Edit.apply : Edit → WordSet → WordSet
  | .insert b, s => s.insert b
  | .union bits, s => s.union bits.set

/-- The numbers that a write brings in. -/
def Edit.brings : Edit → Finset UInt32
  | .insert b => {b}
  | .union bits => bits.members

/-- The set that several writes leave, one after the other. -/
def applyAll (writes : List Edit) (s : WordSet) : WordSet :=
  writes.foldl (fun s edit => edit.apply s) s

/-- The numbers that several writes bring in. -/
def brought : List Edit → Finset UInt32
  | [] => ∅
  | edit :: writes => edit.brings ∪ brought writes

theorem Bounded.apply {s : WordSet} (hs : s.Bounded) (edit : Edit) : (edit.apply s).Bounded := by
  cases edit with
  | insert b => exact hs.insert b
  | union bits => exact hs.union bits.bounded_set

theorem mem_apply (edit : Edit) (s : WordSet) (b : UInt32) :
    b ∈ edit.apply s ↔ b ∈ s ∨ b ∈ edit.brings := by
  cases edit with
  | insert c =>
    rw [Edit.apply, Edit.brings, mem_iff, contains_insert, Bool.or_eq_true, decide_eq_true_eq,
      ← mem_iff, Finset.mem_singleton, or_comm]
  | union bits =>
    rw [Edit.apply, Edit.brings, mem_iff, contains_union, Bool.or_eq_true, ← mem_iff, ← mem_iff,
      bits.mem_set_iff]

theorem Bounded.applyAll {s : WordSet} (hs : s.Bounded) (writes : List Edit) :
    (WordSet.applyAll writes s).Bounded := by
  induction writes generalizing s with
  | nil => exact hs
  | cons edit writes ih => exact ih (hs.apply edit)

theorem mem_applyAll (writes : List Edit) (s : WordSet) (b : UInt32) :
    b ∈ applyAll writes s ↔ b ∈ s ∨ b ∈ brought writes := by
  induction writes generalizing s with
  | nil => simp [applyAll, brought]
  | cons edit writes ih =>
    -- the set that is written into next has the numbers brought in so far
    change b ∈ applyAll writes (edit.apply s) ↔ _
    rw [ih, mem_apply, brought, Finset.mem_union, or_assoc]

end Lineage.WordSet
