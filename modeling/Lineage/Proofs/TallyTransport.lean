import Lineage.Proofs.Json.Tree
import Lineage.Proofs.Steps
import Lineage.Proofs.TallyWords

/-!
# Tallies survive their own text

A tally whose numbers fit into 64-bit words is read back as it was written, entries of zero and the
greatest buckets and numbers included, so that tallies of several partitions can be added up after
they have travelled as texts.

- `bucket?_toDigits`: a bucket has the digits of its number as its spelling;
- `ofJson?_toJson`: all entries are read as they were;
- `survives_transport`: single texts, and sums of what they say.
-/

namespace Lineage.Tally

theorem ofList_toList {κ : Type} [Ord κ] [Std.TransOrd κ] [Std.LawfulEqOrd κ] (t : Tally κ) :
    ofList t.toList = t := by
  classical
  have hdistinct : t.toList.Pairwise fun a b => ¬compare a.1 b.1 = .eq :=
    t.entries.distinct_keys_toList
  -- entries of zero are listed as well, so they are compared as entries
  have hmem (key : κ) : key ∈ (ofList t.toList).entries ↔ key ∈ t.entries := by
    unfold ofList
    rw [Std.ExtTreeMap.mem_ofList, List.contains_iff_mem, List.mem_map, ← exists_mem_toList_iff]
    simp
  apply ext_of_get hmem
  intro key
  by_cases hkey : key ∈ t.entries
  · obtain ⟨n, hentry⟩ := exists_mem_toList_iff.2 hkey
    rw [get_of_mem_toList hentry]
    exact Std.ExtTreeMap.getD_ofList_of_mem Std.ReflCmp.compare_self hdistinct hentry
  · rw [get_eq_zero hkey, get_eq_zero (mt (hmem key).1 hkey)]

theorem bucket?_toDigits (b : Bucket) : bucket? (Nat.toDigits 10 b.toNat) = some b := by
  unfold bucket?
  rw [Json.plainNat?_toDigits, Option.bind_eq_bind, Option.bind_some, if_pos b.toNat_lt,
    UInt32.ofNat_toNat]

theorem written_toJson (t : Tally Bucket) : t.toJson.Written := by
  apply Json.Written.object
  · intro field hfield
    obtain ⟨entry, -, rfl⟩ := List.mem_map.1 hfield
    exact ⟨_, (Json.encode_toDigits _).symm⟩
  · intro field hfield
    obtain ⟨entry, -, rfl⟩ := List.mem_map.1 hfield
    exact Json.written_ofNat _

/-- All entries are read as they were, if their numbers are not too great to be written. -/
theorem ofJson?_toJson {t : Tally Bucket} (h : t.Fits) : ofJson? t.toJson = some t := by
  unfold ofJson? toJson
  simp only [List.mapM_map]
  rw [Json.mapM_eq_some (g := id), List.map_id, Option.bind_eq_bind, Option.bind_some,
    ofList_toList]
  · rfl
  · -- every entry fits, so none of them is refused
    intro entry hentry
    have hfits := fits_iff.1 h entry hentry
    simp [bucket?_toDigits, hfits]

theorem read_of_write {t : Tally Bucket} (h : t.Fits) : read t.write = .ok t := by
  unfold read write
  rw [t.written_toJson.parse?_render_bind, ofJson?_toJson h]

/-- Tallies of numbers that fit into words come back from their texts as they were.  Tallies whose
sums fit can be added up after they have travelled, and the sum is what it would have been. -/
theorem survives_transport :
    (∀ t : Tally Bucket, t.Fits → read t.write = .ok t) ∧
    ∀ parts : List (Tally Bucket), (sum parts).Fits →
      (parts.mapM fun part => read part.write).map sum = .ok (sum parts) := by
  refine ⟨fun t => read_of_write, fun parts hfits => ?_⟩
  -- the parts fit if their sum does, as numbers only grow
  have hread : (parts.mapM fun part => read part.write) = .ok (parts.map id) := by
    apply Step.mapM_eq_ok_map
    intro part hpart
    apply read_of_write
    intro key
    exact Nat.le_trans (get_le_get_sum hpart key) (hfits key)
  rw [hread, List.map_id]
  rfl

/-- The least and the greatest bucket and number. -/
private def extremes : Tally Bucket :=
  .ofList [(0, 0), (4294967295, 18446744073709551615), (10, 9), (9, 10)]

theorem survives_transport_extremes : extremes.Fits ∧ read extremes.write = .ok extremes ∧
    (sum [extremes, .empty, .ofList [(10, 1), (11, 0)]]).Fits ∧
    ([extremes, .empty, .ofList [(10, 1), (11, 0)]].mapM fun part => read part.write).map sum =
      .ok (sum [extremes, .empty, .ofList [(10, 1), (11, 0)]]) := by
  have hfits : extremes.Fits := fits_iff.2 (by decide +kernel)
  have hsum : (sum [extremes, .empty, .ofList [(10, 1), (11, 0)]]).Fits :=
    fits_iff.2 (by decide +kernel)
  exact ⟨hfits, survives_transport.1 _ hfits, hsum, survives_transport.2 _ hsum⟩

end Lineage.Tally
