import Lineage.Partition.Listing
import Lineage.Proofs.Reach

/-!
# What listed partitions lead to

A partition that is written out tells nothing beyond its lists: an ordinal that a document carries
stands in an entry for it, and a walk meets only listed ancestors.  The main document of a hit is in
the segment of the hit.

## Main statements

- `Listing.mem_keys_of_carries`, `Listing.mem_ancestors_of_mem_scan`: all there is, is listed;
- `Listing.segment_of_main`: nesting stays in its segment.
-/

namespace Lineage.Listing

variable {l : Listing} {level : Level} {hit doc : Doc}

/-- A carried ordinal stands in an entry for the document and the level. -/
theorem mem_keys_of_carries {o : Ordinal} (h : l.toPartition.Carries level doc o) :
    ∃ ordinals, (doc, level, ordinals) ∈ l.keys ∧ o ∈ ordinals := by
  obtain ⟨keys, hkeys, ho⟩ := h
  -- of several entries for one document and level, the last one is read
  have hlast : ((l.keys.filter fun entry => entry.1 = doc ∧ entry.2.1 = level).getLast?.map
      fun entry => entry.2.2).getD [] = keys := by
    simp only [toPartition, keysOf] at hkeys
    cases hrefused : l.unlessRefused (.keys level doc) with
    | error fault => simp [hrefused, bind, Except.bind] at hkeys
    | ok u => simpa [hrefused, bind, Except.bind, pure, Except.pure] using hkeys
  cases hfound : (l.keys.filter fun entry => entry.1 = doc ∧ entry.2.1 = level).getLast? with
  | none =>
    rw [hfound] at hlast
    simp [← hlast] at ho
  | some entry =>
    obtain ⟨doc', level', ordinals⟩ := entry
    rw [hfound] at hlast
    obtain rfl : ordinals = keys := hlast
    have hmem := List.mem_of_getLast? hfound
    simp only [List.mem_filter, decide_eq_true_eq] at hmem
    obtain ⟨hentry, rfl, rfl⟩ := hmem
    exact ⟨ordinals, hentry, ho⟩

theorem mem_of_mem_visitsFrom {number : Nat} {docs : List Doc}
    (h : doc ∈ (l.visitsFrom level number docs).docs) : doc ∈ docs := by
  -- a walk may break off at each of the documents, and their numbers go up on the way
  induction docs generalizing number with
  | nil => exact h
  | cons head docs ih =>
    unfold visitsFrom at h
    split at h
    case h_1 => cases h
    case h_2 =>
      rcases List.mem_cons.1 h with rfl | h
      · exact List.mem_cons_self
      · exact List.mem_cons_of_mem _ (ih h)

/-- A walk meets listed ancestors only. -/
theorem mem_ancestors_of_mem_scan (h : doc ∈ (l.toPartition.scan level).docs) :
    ∃ docs ∈ l.ancestors, doc ∈ docs := by
  change doc ∈ (l.scan level).docs at h
  unfold scan at h
  split at h
  case h_1 => cases h
  case h_2 =>
    have hmem := mem_of_mem_visitsFrom h
    rw [List.getD_eq_getElem?_getD] at hmem
    -- a level that is not listed has nothing to be met
    cases hlevel : l.ancestors[level - 1]? with
    | none => simp [hlevel] at hmem
    | some docs =>
      rw [hlevel] at hmem
      exact ⟨docs, List.mem_of_getElem? hlevel, hmem⟩

/-- The main document of a hit is in its segment. -/
theorem segment_of_main (h : l.toPartition.mainDocument.bind (· hit) = some doc) :
    doc.segment = hit.segment := by
  obtain ⟨main, hmain, hdoc⟩ := Option.bind_eq_some_iff.1 h
  obtain ⟨mains, -, rfl⟩ := Option.map_eq_some_iff.1 hmain
  obtain ⟨id, -, rfl⟩ := Option.map_eq_some_iff.1 hdoc
  rfl

end Lineage.Listing
