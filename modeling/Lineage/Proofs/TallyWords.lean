import Lineage.Proofs.TallyMonoid
import Lineage.Tally.Transport

/-!
# Tallies in 64-bit words

Where the numbers of tallies are kept in 64-bit words, an addition gives nothing if its sum does not
fit.  Since numbers only grow while tallies are added up, nothing is lost on the way: the result is
the exact one, and it is there exactly if all its own numbers fit.  Order and groups make no
difference to that, and neither does reading the tallies under other keys first or last, where
numbers that fit apart may come together and fit no longer.

## Main statements

- `Tally.sum?_eq_some_iff`, `Tally.rekey?_eq_some_iff`: words give the exact result, if it fits;
- `Tally.mapM_bind_sum?`: the same for tallies that are themselves computed in words;
- `Tally.sums_in_words`: what adding up comes to if the sums fit.
-/

namespace Lineage.Tally

variable {κ ι : Type} [Ord κ] [Std.TransOrd κ] [Ord ι] [Std.TransOrd ι]

/-! ## §1 Adding in words -/

/-- Every number fits into a word. -/
def Fits (t : Tally κ) : Prop := ∀ key, t.get key ≤ greatest

/-- Add to the number of a key, if the sum fits. -/
def add? (t : Tally κ) (key : κ) (n : Nat) : Option (Tally κ) :=
  if t.get key + n ≤ greatest then some (t.add key n) else none

/-- Add all entries of a list, if no sum on the way is too great. -/
def addAll? (t : Tally κ) (entries : List (κ × Nat)) : Option (Tally κ) :=
  entries.foldlM (fun t entry => t.add? entry.1 entry.2) t

def merge? (t u : Tally κ) : Option (Tally κ) := t.addAll? u.toList

def sum? (parts : List (Tally κ)) : Option (Tally κ) := parts.foldlM merge? empty

def rekey? (f : κ → ι) (t : Tally κ) : Option (Tally ι) :=
  empty.addAll? (t.toList.map fun entry => (f entry.1, entry.2))

theorem fits_empty : (empty : Tally κ).Fits := by
  intro key
  rw [get_empty]
  exact Nat.zero_le _

/-! ## §2 Words and exact numbers -/

/-- Steps that add in words give what exact steps give, if the end fits: numbers only grow, so all
that comes before the end fits as well. -/
theorem foldlM_eq_some_iff {α : Type} {step : Tally κ → α → Tally κ}
    {step? : Tally κ → α → Option (Tally κ)}
    (hgrows : ∀ t x key, t.get key ≤ (step t x).get key)
    (hstep : ∀ t x u, t.Fits → (step? t x = some u ↔ step t x = u ∧ u.Fits))
    {t : Tally κ} (ht : t.Fits) (xs : List α) (u : Tally κ) :
    xs.foldlM step? t = some u ↔ xs.foldl step t = u ∧ u.Fits := by
  -- no step takes anything off, so whatever comes before the end is no greater
  have hfold (xs : List α) (t : Tally κ) (key : κ) : t.get key ≤ (xs.foldl step t).get key := by
    -- each step starts from a tally that fits, which is known from the step before or from the end
    induction xs generalizing t with
    | nil => exact Nat.le_refl _
    | cons x xs ih => exact Nat.le_trans (hgrows t x key) (ih (step t x))
  induction xs generalizing t with
  | nil =>
    change some t = some u ↔ t = u ∧ u.Fits
    rw [Option.some.injEq]
    exact ⟨fun h => ⟨h, h ▸ ht⟩, And.left⟩
  | cons x xs ih =>
    rw [List.foldlM_cons, List.foldl_cons, Option.bind_eq_bind, Option.bind_eq_some_iff]
    constructor
    · rintro ⟨v, hv, hrest⟩
      obtain ⟨rfl, hnext⟩ := (hstep t x v ht).1 hv
      exact (ih hnext).1 hrest
    · rintro ⟨rfl, hfits⟩
      have hnext : (step t x).Fits := fun key => Nat.le_trans (hfold xs _ key) (hfits key)
      exact ⟨step t x, (hstep t x _ ht).2 ⟨rfl, hnext⟩, (ih hnext).2 ⟨rfl, hfits⟩⟩

/-- The same for several results side by side. -/
theorem mapM_eq_some_iff {α : Type} {step : α → Tally κ} {step? : α → Option (Tally κ)}
    (hstep : ∀ x u, step? x = some u ↔ step x = u ∧ u.Fits) (xs : List α) (us : List (Tally κ)) :
    xs.mapM step? = some us ↔ xs.map step = us ∧ ∀ u ∈ us, u.Fits := by
  induction xs generalizing us with
  | nil =>
    change some [] = some us ↔ [] = us ∧ ∀ u ∈ us, u.Fits
    rw [Option.some.injEq]
    exact ⟨fun h => ⟨h, h ▸ List.forall_mem_nil _⟩, And.left⟩
  | cons x xs ih =>
    rw [List.mapM_cons, List.map_cons, Option.bind_eq_bind, Option.bind_eq_some_iff]
    constructor
    · rintro ⟨v, hv, hrest⟩
      obtain ⟨vs, hvs, hpure⟩ := Option.bind_eq_some_iff.1 hrest
      obtain ⟨rfl, hfirst⟩ := (hstep x v).1 hv
      obtain ⟨rfl, hothers⟩ := (ih vs).1 hvs
      cases hpure
      exact ⟨rfl, List.forall_mem_cons.2 ⟨hfirst, hothers⟩⟩
    · rintro ⟨rfl, hfits⟩
      obtain ⟨hfirst, hothers⟩ := List.forall_mem_cons.1 hfits
      exact ⟨step x, (hstep x _).2 ⟨rfl, hfirst⟩,
        Option.bind_eq_some_iff.2 ⟨xs.map step, (ih _).2 ⟨rfl, hothers⟩, rfl⟩⟩

section Words

variable [Std.LawfulEqOrd κ] {t : Tally κ}

theorem fits_iff : t.Fits ↔ ∀ entry ∈ t.toList, entry.2 ≤ greatest := by
  constructor
  · intro h entry hentry
    exact get_of_mem_toList hentry ▸ h entry.1
  · intro h key
    -- keys without an entry count zero, which always fits
    by_cases hkey : key ∈ t.entries
    · obtain ⟨n, hentry⟩ := exists_mem_toList_iff.2 hkey
      exact get_of_mem_toList hentry ▸ h _ hentry
    · rw [get_eq_zero hkey]
      exact Nat.zero_le _

theorem add?_eq_some_iff (ht : t.Fits) (key : κ) (n : Nat) (u : Tally κ) :
    t.add? key n = some u ↔ t.add key n = u ∧ u.Fits := by
  classical
  unfold add?
  -- the number of the key is the only one that has grown
  split
  case isTrue hsum =>
    rw [Option.some.injEq]
    refine ⟨fun h => ⟨h, h ▸ fun k => ?_⟩, And.left⟩
    rw [get_add]
    split
    case isTrue hk => exact hk ▸ hsum
    case isFalse => exact ht k
  case isFalse hsum =>
    refine iff_of_false (Option.some_ne_none u).symm ?_
    rintro ⟨rfl, hfits⟩
    have hkey := hfits key
    rw [get_add, if_pos rfl] at hkey
    exact hsum hkey

theorem addAll?_eq_some_iff (ht : t.Fits) (entries : List (κ × Nat)) (u : Tally κ) :
    t.addAll? entries = some u ↔ t.addAll entries = u ∧ u.Fits := by
  classical
  refine foldlM_eq_some_iff (fun t entry key => ?_)
    (fun t entry u ht => add?_eq_some_iff ht entry.1 entry.2 u) ht entries u
  rw [get_add]
  exact Nat.le_add_right _ _

theorem sum?_eq_some_iff (parts : List (Tally κ)) (u : Tally κ) :
    sum? parts = some u ↔ sum parts = u ∧ u.Fits := by
  refine foldlM_eq_some_iff (fun t part key => ?_)
    (fun t part u ht => addAll?_eq_some_iff ht part.toList u) fits_empty parts u
  rw [get_merge]
  exact Nat.le_add_right _ _

/-- Adding up tallies that are computed in words gives the exact sum, if it fits: then so does each
of them. -/
theorem mapM_bind_sum? {α : Type} {step : α → Tally κ} {step? : α → Option (Tally κ)}
    (hstep : ∀ x u, step? x = some u ↔ step x = u ∧ u.Fits) (xs : List α) (u : Tally κ) :
    (xs.mapM step? >>= sum?) = some u ↔ sum (xs.map step) = u ∧ u.Fits := by
  rw [Option.bind_eq_bind, Option.bind_eq_some_iff]
  constructor
  · rintro ⟨us, hus, hsum⟩
    obtain ⟨rfl, -⟩ := (mapM_eq_some_iff hstep xs us).1 hus
    exact (sum?_eq_some_iff _ u).1 hsum
  · -- each part has no more than the sum, so it is there if the sum is
    rintro ⟨rfl, hfits⟩
    refine ⟨xs.map step, (mapM_eq_some_iff hstep xs _).2 ⟨rfl, fun v hv key => ?_⟩,
      (sum?_eq_some_iff _ _).2 ⟨rfl, hfits⟩⟩
    exact Nat.le_trans (get_le_get_sum hv key) (hfits key)

end Words

theorem rekey?_eq_some_iff [Std.LawfulEqOrd ι] (f : κ → ι) (t : Tally κ) (u : Tally ι) :
    t.rekey? f = some u ↔ t.rekey f = u ∧ u.Fits := by
  rw [rekey_eq]
  exact addAll?_eq_some_iff fits_empty _ u

/-! ## §3 Sums that fit -/

/-- Tallies whose sums fit are added up without loss, key by key, in any order and in any groups.
Read under other keys, the sum is the sum of the tallies read under these keys, with an entry just
for the keys that a bucket is read as; in words either both are there, or both are too great. -/
theorem sums_in_words {parts : List (Tally Bucket)} (hfits : (sum parts).Fits) :
    sum? parts = some (sum parts) ∧
    (∀ b, (sum parts).get b = (parts.map fun part => part.get b).sum ∧
      (b ∈ (sum parts).entries ↔ ∃ part ∈ parts, b ∈ part.entries)) ∧
    (∀ parts' : List (Tally Bucket), parts'.Perm parts →
      sum parts' = sum parts ∧ sum? parts' = some (sum parts)) ∧
    (∀ groups : List (List (Tally Bucket)), groups.flatten = parts →
      sum (groups.map sum) = sum parts ∧ (groups.mapM sum? >>= sum?) = some (sum parts)) ∧
    (∀ t : Tally Bucket, empty.merge t = t ∧ t.merge empty = t) ∧
    (∀ front back : List (Tally Bucket), front ++ back = parts →
      sum (front ++ empty :: back) = sum parts ∧
        sum? (front ++ empty :: back) = some (sum parts)) ∧
    ∀ {ι : Type} [Ord ι] [Std.TransOrd ι] [Std.LawfulEqOrd ι] (f : Bucket → ι),
      (∀ k, ((sum parts).rekey f).get k = (parts.map fun part => (part.rekey f).get k).sum ∧
        (k ∈ ((sum parts).rekey f).entries ↔ ∃ b ∈ (sum parts).entries, f b = k)) ∧
      (sum parts).rekey f = sum (parts.map (rekey f)) ∧
      (sum parts).rekey? f = (parts.mapM (rekey? f) >>= sum?) := by
  refine ⟨(sum?_eq_some_iff parts _).2 ⟨rfl, hfits⟩, fun b => ⟨get_sum parts b, mem_sum parts b⟩,
    ?_, ?_, fun t => ⟨empty_merge t, merge_empty t⟩, ?_, ?_⟩
  · intro parts' hperm
    exact ⟨sum_perm hperm, (sum?_eq_some_iff parts' _).2 ⟨sum_perm hperm, hfits⟩⟩
  · intro groups hgroups
    have hsum : sum (groups.map sum) = sum parts := by
      rw [sum_map_sum, hgroups]
    exact ⟨hsum, (mapM_bind_sum? sum?_eq_some_iff groups _).2 ⟨hsum, hfits⟩⟩
  · rintro front back rfl
    have hsum := sum_append_empty front back
    exact ⟨hsum, (sum?_eq_some_iff _ _).2 ⟨hsum, hfits⟩⟩
  · -- read under other keys, numbers come together, and either both sides fit or neither
    intro ι _ _ _ f
    have hsum := rekey_sum f parts
    refine ⟨fun k => ⟨?_, mem_rekey f _ k⟩, hsum, Option.ext fun u => ?_⟩
    · rw [hsum, get_sum, List.map_map]
      rfl
    · rw [rekey?_eq_some_iff, hsum]
      exact (mapM_bind_sum? (rekey?_eq_some_iff f) parts u).symm

/-- Parts whose numbers for one bucket fill a word together, and an entry of zero. -/
private def shards : List (Tally Bucket) :=
  [.ofList [(0, 18446744073709551614), (3, 0)], .empty, .ofList [(0, 1), (7, 5)]]

theorem sums_in_words_shards : (sum shards).Fits ∧
    sum? shards.reverse = some (sum shards) ∧
    ([shards.take 2, shards.drop 2].mapM sum? >>= sum?) = some (sum shards) ∧
    ((sum shards).rekey? fun b => b % 3) = (shards.mapM (rekey? fun b => b % 3) >>= sum?) := by
  have hfits : (sum shards).Fits := fits_iff.2 (by decide +kernel)
  obtain ⟨-, -, hperm, hgroups, -, -, hkeys⟩ := sums_in_words hfits
  exact ⟨hfits, (hperm _ (List.reverse_perm shards)).2, (hgroups _ rfl).2, (hkeys _).2.2⟩

end Lineage.Tally
