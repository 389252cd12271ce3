import Lineage.Proofs.Ordered
import Mathlib.Algebra.BigOperators.Group.List.Basic
import Mathlib.Data.Set.Card

/-!
# Sums of tallies

Adding tallies up is adding their numbers key by key: a key has an entry in the sum exactly if it
has one in a part, and its number is the sum of its numbers in the parts.

## Main statements

- `Tally.get_merge`, `Tally.mem_merge`: two tallies;
- `Tally.get_sum`, `Tally.mem_sum`: any list of them;
- `Tally.CountsSets.eq_sum`: tallies of disjoint sets add up to that of their union.
-/

namespace Lineage.Tally

variable {κ : Type} [Ord κ] [Std.TransOrd κ]

/-! ## §1 Adding entries -/

/-- What the entries of a list add to the number of a key. -/
def share [DecidableEq κ] (entries : List (κ × Nat)) (key : κ) : Nat :=
  (entries.map fun entry => if entry.1 = key then entry.2 else 0).sum

theorem get_empty (key : κ) : (empty : Tally κ).get key = 0 := by
  simp [empty, get]

theorem not_mem_empty (key : κ) : key ∉ (empty : Tally κ).entries := by
  simp [empty]

theorem get_eq_zero {t : Tally κ} {key : κ} (h : key ∉ t.entries) : t.get key = 0 :=
  Std.ExtTreeMap.getD_eq_fallback h

theorem merge_empty (t : Tally κ) : t.merge empty = t := by
  have hnil : (empty : Tally κ).toList = [] := by
    rw [← List.isEmpty_iff, toList, Std.ExtTreeMap.isEmpty_toList]
    exact Std.ExtTreeMap.isEmpty_empty
  simp [merge, hnil, addAll]

variable [Std.LawfulEqOrd κ]

theorem get_add [DecidableEq κ] (t : Tally κ) (key : κ) (n : Nat) (k : κ) :
    (t.add key n).get k = t.get k + if key = k then n else 0 := by
  unfold get add
  rw [Std.ExtTreeMap.getD_alter]
  by_cases hk : key = k
  · subst hk
    simp [Std.ExtTreeMap.getD_eq_getD_getElem?]
  · simp [hk]

theorem mem_add (t : Tally κ) (key : κ) (n : Nat) (k : κ) :
    k ∈ (t.add key n).entries ↔ k ∈ t.entries ∨ k = key := by
  unfold add
  rw [Std.ExtTreeMap.mem_alter]
  by_cases hk : key = k
  · subst hk
    simp
  · simp [hk, Ne.symm hk]

theorem get_addAll [DecidableEq κ] (t : Tally κ) (entries : List (κ × Nat)) (k : κ) :
    (t.addAll entries).get k = t.get k + share entries k := by
  unfold addAll
  -- the tally that is added to grows with each entry
  induction entries generalizing t with
  | nil => simp [share]
  | cons entry entries ih =>
    rw [List.foldl_cons, ih, get_add, share, share, List.map_cons, List.sum_cons, Nat.add_assoc]

theorem mem_addAll (t : Tally κ) (entries : List (κ × Nat)) (k : κ) :
    k ∈ (t.addAll entries).entries ↔ k ∈ t.entries ∨ ∃ n, (k, n) ∈ entries := by
  unfold addAll
  induction entries generalizing t with
  | nil => simp
  | cons entry entries ih =>
    obtain ⟨key, m⟩ := entry
    rw [List.foldl_cons, ih, mem_add, or_assoc]
    apply or_congr_right
    simp [exists_or]

/-! ## §2 Merging -/

theorem exists_mem_toList_iff {t : Tally κ} {key : κ} :
    (∃ n, (key, n) ∈ t.toList) ↔ key ∈ t.entries := by
  rw [Std.ExtTreeMap.mem_iff_isSome_getElem?, Option.isSome_iff_exists]
  exact exists_congr fun n => Std.ExtTreeMap.mem_toList_iff_getElem?_eq_some

theorem get_of_mem_toList {t : Tally κ} {key : κ} {n : Nat} (h : (key, n) ∈ t.toList) :
    t.get key = n := by
  have hfound : t.entries[key]? = some n := Std.ExtTreeMap.mem_toList_iff_getElem?_eq_some.1 h
  rw [get, Std.ExtTreeMap.getD_eq_getD_getElem?, hfound, Option.getD_some]

/-- The listed entries of a tally add its own numbers, since every key is listed once. -/
theorem share_toList [DecidableEq κ] (t : Tally κ) (k : κ) : share t.toList k = t.get k := by
  have hdistinct : t.toList.Pairwise fun a b => ¬compare a.1 b.1 = .eq :=
    t.entries.distinct_keys_toList
  have hmem (n : Nat) : (k, n) ∈ t.toList ↔ t.entries[k]? = some n :=
    Std.ExtTreeMap.mem_toList_iff_getElem?_eq_some
  have hget : t.get k = t.entries[k]?.getD 0 := Std.ExtTreeMap.getD_eq_getD_getElem?
  rw [hget]
  -- the induction is over any list of distinct keys in which the key has what is found for it
  generalize t.entries[k]? = found at hmem
  generalize t.toList = entries at hdistinct hmem
  induction entries generalizing found with
  | nil =>
    cases found with
    | none => rfl
    | some n => simp at hmem
  | cons entry entries ih =>
    obtain ⟨key, m⟩ := entry
    obtain ⟨hhead, htail⟩ := List.pairwise_cons.1 hdistinct
    rw [share, List.map_cons, List.sum_cons]
    change _ + share entries k = _
    by_cases hk : key = k
    · -- the rest has no entry for the key
      subst hk
      have hrest (n : Nat) : (key, n) ∉ entries := fun hn => hhead _ hn (by simp)
      obtain rfl : found = some m := (hmem m).1 List.mem_cons_self
      have hnone : share entries key = (none : Option Nat).getD 0 := by
        apply ih none htail
        simp [hrest]
      simp [hnone]
    · rw [if_neg hk, Nat.zero_add]
      apply ih found htail
      intro n
      rw [← hmem n, List.mem_cons, Prod.mk.injEq]
      simp [Ne.symm hk]

theorem get_merge (t u : Tally κ) (k : κ) : (t.merge u).get k = t.get k + u.get k := by
  classical
  rw [merge, get_addAll, share_toList]

theorem mem_merge (t u : Tally κ) (k : κ) :
    k ∈ (t.merge u).entries ↔ k ∈ t.entries ∨ k ∈ u.entries := by
  rw [merge, mem_addAll, exists_mem_toList_iff]

/-! ## §3 Several tallies -/

theorem get_sum (parts : List (Tally κ)) (k : κ) :
    (sum parts).get k = (parts.map fun part => part.get k).sum := by
  -- a sum starts from nothing, which is too little to go through the parts by induction
  suffices h : ∀ t : Tally κ, (parts.foldl merge t).get k =
      t.get k + (parts.map fun part => part.get k).sum by
    rw [sum, h, get_empty, Nat.zero_add]
  induction parts with
  | nil => simp
  | cons part parts ih =>
    intro t
    rw [List.foldl_cons, ih, get_merge, List.map_cons, List.sum_cons, Nat.add_assoc]

theorem mem_sum (parts : List (Tally κ)) (k : κ) :
    k ∈ (sum parts).entries ↔ ∃ part ∈ parts, k ∈ part.entries := by
  -- as for the numbers
  suffices h : ∀ t : Tally κ, k ∈ (parts.foldl merge t).entries ↔
      k ∈ t.entries ∨ ∃ part ∈ parts, k ∈ part.entries by
    rw [sum, h]
    simp [not_mem_empty]
  induction parts with
  | nil => simp
  | cons part parts ih =>
    intro t
    rw [List.foldl_cons, ih, mem_merge, or_assoc]
    simp

/-! ## §4 Tallies that count sets -/

section Counting

variable {α : Type} {sets sets' : Bucket → Set α} {t u v : Tally Bucket}

/-- A tally tells the size of a set for every bucket, and has an entry exactly for the buckets whose
set has members. -/
def CountsSets (t : Tally Bucket) (sets : Bucket → Set α) : Prop :=
  ∀ b, t.get b = (sets b).ncard ∧ (b ∈ t.entries ↔ 0 < (sets b).ncard)

theorem CountsSets.unique (ht : t.CountsSets sets) (hu : u.CountsSets sets) : t = u := by
  apply ext_of_get
  · intro b
    rw [(ht b).2, (hu b).2]
  · intro b
    rw [(ht b).1, (hu b).1]

/-- What is disjoint and counted apart can be added up. -/
theorem CountsSets.eq_sum (ht : t.CountsSets sets) (hu : u.CountsSets sets')
    (hv : v.CountsSets fun b => sets b ∪ sets' b) (hdisjoint : ∀ b, ∀ a ∈ sets b, a ∉ sets' b)
    (hfinite : ∀ b, (sets b).Finite) (hfinite' : ∀ b, (sets' b).Finite) : v = sum [t, u] := by
  -- disjoint sets are counted apart
  have hunion (b : Bucket) : (sets b ∪ sets' b).ncard = (sets b).ncard + (sets' b).ncard :=
    Set.ncard_union_eq (Set.disjoint_left.2 (hdisjoint b)) (hfinite b) (hfinite' b)
  apply ext_of_get
  · intro b
    rw [(hv b).2, hunion, mem_sum]
    simp [(ht b).2, (hu b).2]
  · intro b
    rw [(hv b).1, hunion, get_sum]
    simp [(ht b).1, (hu b).1]

end Counting

end Lineage.Tally
