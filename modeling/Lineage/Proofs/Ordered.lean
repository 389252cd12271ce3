import Lineage.Ascending
import Lineage.Proofs.LinkTable.Listing
import Lineage.Tally

/-!
# Ascending lists and tallies

What is needed of the ordered collections: an ascending list has the members of the list it is
made from, and the tally of a table tells the size of every row.
-/

namespace Lineage

/-! ## §1 Ascending lists -/

section Ascending

variable {α : Type} [Ord α] [Std.TransOrd α]

@[simp] theorem mem_ascending [Std.LawfulEqOrd α] [BEq α] [LawfulBEq α] {xs : List α} {x : α} :
    x ∈ ascending xs ↔ x ∈ xs := by
  simp [ascending, Std.ExtTreeSet.mem_ofList]

end Ascending

/-! ## §2 The tally of a table -/

namespace Tally

/-- Tallies are the same if they have the same entries and numbers. -/
theorem ext_of_get {κ : Type} [Ord κ] [Std.TransOrd κ] [Std.LawfulEqOrd κ] {a b : Tally κ}
    (hmem : ∀ key, key ∈ a.entries ↔ key ∈ b.entries) (hget : ∀ key, a.get key = b.get key) :
    a = b := by
  apply Tally.ext
  apply Std.ExtTreeMap.ext_getElem?
  intro key
  -- a key without an entry counts zero, so the entries have to be compared apart
  by_cases hkey : key ∈ a.entries
  · have ha : a.entries[key]? = some (a.get key) := Std.ExtTreeMap.getElem?_eq_some_getD hkey
    have hb : b.entries[key]? = some (b.get key) :=
      Std.ExtTreeMap.getElem?_eq_some_getD ((hmem key).1 hkey)
    rw [ha, hb, hget]
  · rw [Std.ExtTreeMap.getElem?_eq_none hkey,
      Std.ExtTreeMap.getElem?_eq_none (mt (hmem key).2 hkey)]

variable {t : LinkTable}

/-- The entries that a tally is made from have distinct keys. -/
private theorem entries_distinct (h : t.WellFormed) :
    ((t.toList.map fun entry => (entry.1, entry.2.cardinality)).filter fun entry =>
      0 < entry.2).Pairwise fun a b => ¬compare a.1 b.1 = .eq := by
  refine List.Pairwise.filter _ (List.pairwise_map.2 ?_)
  -- rows are listed with ascending keys
  apply (LinkTable.toList_pairwise_lt h).imp
  intro a b hlt heq
  rw [Std.LawfulEqOrd.compare_eq_iff_eq] at heq
  exact absurd heq (UInt32.ne_of_lt hlt)

/-- A row with members is among the entries. -/
private theorem mem_entries (h : t.WellFormed) {key : UInt32} {n : Nat} :
    (key, n) ∈ ((t.toList.map fun entry => (entry.1, entry.2.cardinality)).filter fun entry =>
      0 < entry.2) ↔ 0 < n ∧ (t.row key).cardinality = n := by
  simp only [List.mem_filter, List.mem_map, Prod.exists, Prod.mk.injEq, decide_eq_true_eq,
    LinkTable.mem_toList h]
  constructor
  · rintro ⟨⟨k, row, hrow, rfl, rfl⟩, hpos⟩
    exact ⟨hpos, by rw [LinkTable.row, hrow, Option.getD_some]⟩
  · -- a row with members is there, for one that is missing counts as empty
    rintro ⟨hpos, rfl⟩
    refine ⟨⟨key, t.row key, ?_, rfl, rfl⟩, hpos⟩
    unfold LinkTable.row at hpos ⊢
    cases hrow : t.row? key with
    | none =>
      rw [hrow] at hpos
      exact absurd hpos (by decide)
    | some row => rfl

/-- The tally of a table has an entry for every row with members. -/
theorem mem_ofTable (h : t.WellFormed) {key : UInt32} :
    key ∈ (ofTable t).entries ↔ 0 < (t.row key).cardinality := by
  unfold ofTable ofList
  rw [Std.ExtTreeMap.mem_ofList, List.contains_iff_mem, List.mem_map]
  constructor
  · rintro ⟨⟨k, n⟩, hmem, rfl⟩
    obtain ⟨hpos, hn⟩ := (mem_entries h).1 hmem
    exact hn ▸ hpos
  · intro hpos
    exact ⟨(key, (t.row key).cardinality), (mem_entries h).2 ⟨hpos, rfl⟩, rfl⟩

/-- The tally of a table tells the number of members of every row. -/
theorem get_ofTable (h : t.WellFormed) (key : UInt32) :
    (ofTable t).get key = (t.row key).cardinality := by
  by_cases hpos : 0 < (t.row key).cardinality
  · exact Std.ExtTreeMap.getD_ofList_of_mem (by simp) (entries_distinct h)
      ((mem_entries h).2 ⟨hpos, rfl⟩)
  · -- a row without members has no entry and is counted as zero
    have hnot : key ∉ (ofTable t).entries := fun hmem => hpos ((mem_ofTable h).1 hmem)
    rw [get, Std.ExtTreeMap.getD_eq_fallback hnot]
    omega

end Tally

end Lineage
