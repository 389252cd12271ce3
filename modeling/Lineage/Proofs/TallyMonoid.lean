import Lineage.Proofs.TallySums
import Mathlib.Algebra.BigOperators.Group.Finset.Basic
import Mathlib.Algebra.Order.BigOperators.Group.List

/-!
# Tallies as a commutative monoid

Tallies can be added up in any order and in any groups, and reading them under other keys may come
before or after it.  An entry of zero is an entry all the same, so these are equations between
tallies and not only between the numbers that are looked up in them.

## Main statements

- the instance `AddCommMonoid (Tally κ)`, whose sums of lists are those of `Tally.sum`;
- `Tally.get_rekey`: a number under a new key is the sum of the numbers under the old ones;
- `Tally.rekeyHom`: other keys as a homomorphism.
-/

namespace Lineage.Tally

variable {κ ι : Type} [Ord κ] [Std.TransOrd κ] [Ord ι] [Std.TransOrd ι]

theorem rekey_eq (f : κ → ι) (t : Tally κ) :
    t.rekey f = empty.addAll (t.toList.map fun entry => (f entry.1, entry.2)) := rfl

variable [Std.LawfulEqOrd κ] [Std.LawfulEqOrd ι]

/-! ## §1 Adding up -/

theorem merge_comm (t u : Tally κ) : t.merge u = u.merge t := by
  apply ext_of_get
  · intro key
    rw [mem_merge, mem_merge, or_comm]
  · intro key
    rw [get_merge, get_merge, Nat.add_comm]

theorem merge_assoc (t u v : Tally κ) : (t.merge u).merge v = t.merge (u.merge v) := by
  apply ext_of_get
  · intro key
    simp only [mem_merge, or_assoc]
  · intro key
    simp only [get_merge, Nat.add_assoc]

theorem empty_merge (t : Tally κ) : empty.merge t = t := by
  rw [merge_comm, merge_empty]

instance : Add (Tally κ) := ⟨merge⟩

instance : Zero (Tally κ) := ⟨empty⟩

instance : AddCommMonoid (Tally κ) where
  add_assoc := merge_assoc
  zero_add := empty_merge
  add_zero := merge_empty
  add_comm := merge_comm
  nsmul := nsmulRec

theorem sum_eq_list_sum (parts : List (Tally κ)) : sum parts = parts.sum :=
  List.sum_eq_foldl.symm

theorem sum_perm {parts parts' : List (Tally κ)} (h : parts'.Perm parts) :
    sum parts' = sum parts := by
  rw [sum_eq_list_sum, sum_eq_list_sum, h.sum_eq]

theorem sum_map_sum (groups : List (List (Tally κ))) :
    sum (groups.map sum) = sum groups.flatten := by
  have hsums : (sum : List (Tally κ) → Tally κ) = List.sum := funext sum_eq_list_sum
  rw [hsums, List.sum_flatten]

/-- A tally without entries may be left out. -/
theorem sum_append_empty (front back : List (Tally κ)) :
    sum (front ++ empty :: back) = sum (front ++ back) := by
  have hzero : (empty : Tally κ) = 0 := rfl
  simp only [sum_eq_list_sum, hzero, List.sum_append, List.sum_cons, zero_add]

/-- No part has more for a key than the sum. -/
theorem get_le_get_sum {part : Tally κ} {parts : List (Tally κ)} (hpart : part ∈ parts) (key : κ) :
    part.get key ≤ (sum parts).get key := by
  rw [get_sum]
  exact List.le_sum_of_mem (List.mem_map_of_mem hpart)

/-! ## §2 Other keys -/

/-- The new keys are those that the old ones are read as. -/
theorem mem_rekey (f : κ → ι) (t : Tally κ) (k : ι) :
    k ∈ (t.rekey f).entries ↔ ∃ key ∈ t.entries, f key = k := by
  rw [rekey_eq, mem_addAll]
  -- reading under other keys starts from nothing and adds every entry
  constructor
  · rintro (hempty | ⟨n, hmem⟩)
    · exact absurd hempty (not_mem_empty k)
    · obtain ⟨⟨key, m⟩, hentry, heq⟩ := List.mem_map.1 hmem
      exact ⟨key, exists_mem_toList_iff.1 ⟨m, hentry⟩, (Prod.mk.inj heq).1⟩
  · rintro ⟨key, hkey, rfl⟩
    obtain ⟨n, hentry⟩ := exists_mem_toList_iff.2 hkey
    exact .inr ⟨n, List.mem_map.2 ⟨(key, n), hentry, rfl⟩⟩

/-- The number under a new key is the sum over the old keys that are read as it, of which any finite
set with all entries will do. -/
theorem get_rekey [DecidableEq ι] (f : κ → ι) {t : Tally κ} {keys : Finset κ}
    (hkeys : ∀ key ∈ t.entries, key ∈ keys) (k : ι) :
    (t.rekey f).get k = ∑ key ∈ keys, if f key = k then t.get key else 0 := by
  classical
  -- the entries of the list are those of the tally, one for each of its keys
  have hlisted : share (t.toList.map fun entry => (f entry.1, entry.2)) k =
      (t.entries.keys.map fun key => if f key = k then t.get key else 0).sum := by
    rw [share, ← Std.ExtTreeMap.map_fst_toList_eq_keys, List.map_map, List.map_map]
    congr 1
    apply List.map_congr_left
    intro entry hentry
    simp only [Function.comp_apply, get_of_mem_toList hentry]
  rw [rekey_eq, get_addAll, get_empty, Nat.zero_add, hlisted,
    ← List.sum_toFinset _ Std.ExtTreeMap.nodup_keys]
  -- further keys have no entry and add nothing
  apply Finset.sum_subset
  · intro key hkey
    exact hkeys key (Std.ExtTreeMap.mem_keys.1 (List.mem_toFinset.1 hkey))
  · intro key _ hnone
    have hget : t.get key = 0 :=
      get_eq_zero fun hkey => hnone (List.mem_toFinset.2 (Std.ExtTreeMap.mem_keys.2 hkey))
    simp [hget]

theorem rekey_empty (f : κ → ι) : (empty : Tally κ).rekey f = empty := by
  apply ext_of_get
  · intro k
    simp [mem_rekey, not_mem_empty]
  · intro k
    classical
    have hnone (key : κ) (hkey : key ∈ (empty : Tally κ).entries) : key ∈ (∅ : Finset κ) :=
      absurd hkey (not_mem_empty key)
    rw [get_rekey f hnone, Finset.sum_empty, get_empty]

theorem rekey_merge (f : κ → ι) (t u : Tally κ) :
    (t.merge u).rekey f = (t.rekey f).merge (u.rekey f) := by
  classical
  apply ext_of_get
  · -- a new key has an entry if one of its old ones has, in either part
    intro k
    simp only [mem_rekey, mem_merge, or_and_right, exists_or]
  · intro k
    -- the keys of the sum are enough for both parts
    have hkeys (key : κ) (hkey : key ∈ (t.merge u).entries) :
        key ∈ (t.merge u).entries.keys.toFinset :=
      List.mem_toFinset.2 (Std.ExtTreeMap.mem_keys.2 hkey)
    rw [get_merge, get_rekey f hkeys,
      get_rekey f fun key hkey => hkeys key ((mem_merge t u key).2 (.inl hkey)),
      get_rekey f fun key hkey => hkeys key ((mem_merge t u key).2 (.inr hkey)),
      ← Finset.sum_add_distrib]
    apply Finset.sum_congr rfl
    intro key _
    rw [get_merge]
    split <;> rfl

/-- Reading tallies under other keys. -/
def rekeyHom (f : κ → ι) : Tally κ →+ Tally ι where
  toFun := rekey f
  map_zero' := rekey_empty f
  map_add' := rekey_merge f

/-- Tallies may be added up before or after they are read under other keys. -/
theorem rekey_sum (f : κ → ι) (parts : List (Tally κ)) :
    (sum parts).rekey f = sum (parts.map (rekey f)) := by
  rw [sum_eq_list_sum, sum_eq_list_sum]
  exact map_list_sum (rekeyHom f) parts

end Lineage.Tally
