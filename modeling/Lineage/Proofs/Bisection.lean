import Lineage.Ascending
import Lineage.Bisection
import Mathlib.Logic.Basic

/-!
# What bisection finds

Bisection of an ascending array finds every member, at its place, and nothing else.  Whatever it
finds is there in any case; that it misses nothing is up to the order of the array.

## Main statements

- `bisect_eq_some_iff`: the places that are found.
-/

namespace Lineage

variable {α : Type} [Ord α] {xs : Array α} {x : α}

/-- Every member comes before those that stand after it. -/
def Ascends (xs : List α) : Prop := xs.Pairwise fun a b => compare a b = .lt

instance (xs : List α) : Decidable (Ascends xs) :=
  inferInstanceAs (Decidable (xs.Pairwise fun a b => compare a b = .lt))

theorem ascends_ascending [Std.TransOrd α] (xs : List α) : Ascends (ascending xs) :=
  Std.ExtTreeSet.ordered_toList

/-- What is found is there, whatever the order of the array. -/
theorem getElem?_of_bisect [Std.LawfulEqOrd α] {i : Nat} (h : bisect xs x = some i) :
    xs[i]? = some x := by
  unfold bisect at h
  obtain ⟨hsame, hplace⟩ := Option.ite_none_right_eq_some.1 h
  cases hplace
  obtain ⟨y, hy, heq⟩ := (Option.any_eq_true ..).1 hsame
  rw [hy, Std.LawfulEqOrd.eq_of_compare (beq_iff_eq.1 heq)]

variable [Std.TransOrd α]

/-- In an ascending array, comparing with a member tells on which side of it another one stands. -/
theorem Ascends.compare_ne_gt_iff (h : Ascends xs.toList) {i k : Nat} {y : α}
    (hx : xs[i]? = some x) (hy : xs[k]? = some y) : compare y x ≠ .gt ↔ k ≤ i := by
  -- the order of the array, read off for two places
  have hbefore {i k : Nat} {x y : α} (hx : xs[i]? = some x) (hy : xs[k]? = some y) (hlt : i < k) :
      compare x y = .lt := by
    obtain ⟨hi, rfl⟩ := Array.getElem?_eq_some_iff.1 hx
    obtain ⟨hk, rfl⟩ := Array.getElem?_eq_some_iff.1 hy
    exact List.pairwise_iff_getElem.1 h i k hi hk hlt
  rcases Nat.lt_trichotomy k i with hlt | rfl | hgt
  · have hcompare := hbefore hy hx hlt
    exact iff_of_true (by simp [hcompare]) (by omega)
  · obtain rfl : x = y := Option.some.inj (hx.symm.trans hy)
    exact iff_of_true (by simp [Std.ReflOrd.compare_self]) (Nat.le_refl k)
  · have hcompare := Std.OrientedCmp.gt_of_lt (hbefore hx hy hgt)
    exact iff_of_false (by simp [hcompare]) (by omega)

/-- Members compare as their places do. -/
theorem Ascends.compare_eq_lt_iff {xs : List α} (h : Ascends xs) {i k : Nat} {x y : α}
    (hx : xs[i]? = some x) (hy : xs[k]? = some y) : compare x y = .lt ↔ i < k := by
  have harray : Ascends xs.toArray.toList := h
  have hside : compare y x ≠ .gt ↔ k ≤ i :=
    harray.compare_ne_gt_iff (by simpa using hx) (by simpa using hy)
  rw [← Std.OrientedCmp.gt_iff_lt, ← Nat.not_le, ← hside, Decidable.not_not]

/-- A member that stands in a stretch is what the stretch is narrowed down to. -/
theorem narrow_eq (h : Ascends xs.toList) {i : Nat} (hx : xs[i]? = some x) {base size : Nat}
    (hfrom : base ≤ i) (hto : i < base + size) (hin : base + size ≤ xs.size) :
    narrow xs x base size = i := by
  -- the stretch always holds the place of the member, and is halved until nothing else is in it
  fun_induction narrow xs x base size with
  | case1 base size hone => omega
  | case2 base size hmore half inUpper ih =>
    have hhalf : half = size / 2 := rfl
    have hmiddle : xs[base + half]? = some xs[base + half] := Array.getElem?_eq_getElem (by omega)
    -- the probe in the middle tells in which half the place is
    have hside : inUpper = true ↔ base + half ≤ i := by
      rw [← h.compare_ne_gt_iff hx hmiddle]
      simp [inUpper, hmiddle]
    by_cases hupper : inUpper = true
    · rw [dif_pos hupper] at ih
      rw [if_pos hupper]
      exact ih (hside.1 hupper) (by omega) (by omega)
    · rw [dif_neg hupper] at ih
      rw [if_neg hupper]
      have hbelow : i < base + half := Nat.lt_of_not_le (mt hside.2 hupper)
      exact ih hfrom (by omega) (by omega)

theorem bisect_eq_some_iff [Std.LawfulEqOrd α] (h : Ascends xs.toList) {i : Nat} :
    bisect xs x = some i ↔ xs[i]? = some x := by
  refine ⟨getElem?_of_bisect, fun hx => ?_⟩
  -- only the other direction needs the order: the whole array is narrowed down to the place
  obtain ⟨hi, -⟩ := Array.getElem?_eq_some_iff.1 hx
  have hplace : narrow xs x 0 xs.size = i := narrow_eq h hx (Nat.zero_le i) (by omega) (by omega)
  simp [bisect, hplace, hx, Std.ReflOrd.compare_self]

end Lineage
