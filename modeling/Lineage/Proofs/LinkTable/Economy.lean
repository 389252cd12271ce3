import Lineage.Proofs.LinkTable.Accounting
import Lineage.Proofs.LinkTable.Rows
import Lineage.Proofs.WordSet.Growth
import Mathlib.Algebra.BigOperators.Ring.List
import Mathlib.Algebra.Order.BigOperators.Group.List

/-!
# Tables that hold no more than twice what they need

Key slots and rows at least double when they grow, so a table holds more than its contents need, and
a call may be refused that would fit if everything were laid out tightly.  But slots and rows only
grow for a key and a member that are there afterwards, be the call refused or not, and so a table
that is only written to never holds more than twice what its contents need at the least.  A call is
refused only if this is too much.

## Main statements

- `write_isOk_iff`: the three checks of a write together are one check of the table once written;
- `Economical.bytes_le`: what a table holds against what its contents need;
- `History.answers_of_twice_least`: calls that cannot be refused.
-/

namespace Lineage.LinkTable

variable {t : LinkTable}

/-! ## §1 One check for three -/

/-- A write whose row is as large as foretold, and no smaller than before, answers exactly if the
table, once written, is within its limit: the two checks before it refuse nothing that the last one
would let pass. -/
theorem write_isOk_iff {key : UInt32} {rowBytes : Nat} (change : WordSet → WordSet)
    (hforetold : (change (t.row key)).bytes = rowBytes) (hgrows : (t.row key).bytes ≤ rowBytes) :
    ((write key rowBytes change).result t).isOk = true ↔ (t.written key change).bytes ≤ t.limit := by
  constructor
  · intro hok
    obtain ⟨⟨⟩, hwrite⟩ := Step.exists_of_isOk hok
    obtain ⟨hleft, hbytes⟩ := write_eq_ok hwrite
    rw [← hleft]
    exact hbytes
  · intro hwithin
    have hbytes := bytes_written t key change
    have hslots := size_le_size_roomFor t (key.toNat + 1)
    have hroom : (t.roomFor (key.toNat + 1)).bytes =
        (t.roomFor (key.toNat + 1)).rows.size * slotBytes + t.charged := by
      rw [bytes, charged_roomFor]
    -- the row is a part of the table once written, and so are the slots
    have hrow : ¬t.RowRefused key rowBytes := by
      rintro ⟨-, hover⟩
      simp only [LinkTable.bytes, slotBytes] at hover hbytes hwithin
      omega
    have hroomy : ¬t.SlotsRefused (key.toNat + 1) := by
      rintro ⟨-, hover⟩
      omega
    have hwrite := write_apply t key rowBytes change
    rw [if_neg hrow, if_neg hroomy, if_neg (Nat.not_lt.2 hwithin)] at hwrite
    rw [Step.result_of_ok hwrite]
    rfl

/-- An insertion answers exactly if the table with the link written into it is within its limit. -/
theorem insert_answers_iff {key bit : UInt32} :
    (∃ fresh u, insert key bit t = .ok fresh u) ↔
      (t.written key (·.insert bit)).bytes ≤ t.limit := by
  have hforetold : ((t.row key).insert bit).bytes = (t.row key).bytesAfterInsert bit :=
    WordSet.bytes_insert (t.row key) bit
  have hgrows : (t.row key).bytes ≤ (t.row key).bytesAfterInsert bit :=
    WordSet.bytes_le_bytesToFit _ _
  -- an insertion is a write, and it also answers whether the member is new
  rw [← write_isOk_iff (·.insert bit) hforetold hgrows]
  constructor
  · rintro ⟨fresh, u, hinsert⟩
    obtain ⟨before, r, hget, hrest⟩ := Step.bind_eq_ok.1 hinsert
    obtain ⟨rfl, rfl⟩ := Step.get_eq_ok.1 hget
    obtain ⟨⟨⟩, v, hwrite, -⟩ := Step.bind_eq_ok.1 hrest
    rw [Step.result_of_ok hwrite]
    rfl
  · intro hok
    obtain ⟨⟨⟩, hwrite⟩ := Step.exists_of_isOk hok
    exact ⟨_, _, Step.bind_eq_ok.2 ⟨t, t, rfl, Step.bind_eq_ok.2 ⟨(), _, hwrite, rfl⟩⟩⟩

theorem addRow_answers_iff {key : UInt32} {bits : WordSet} :
    (∃ u, addRow key bits t = .ok () u) ↔ (t.written key (·.union bits)).bytes ≤ t.limit := by
  have hforetold : ((t.row key).union bits).bytes = (t.row key).bytesAfterUnion bits :=
    WordSet.bytes_union (t.row key) bits
  have hgrows : (t.row key).bytes ≤ (t.row key).bytesAfterUnion bits :=
    WordSet.bytes_le_bytesToFit _ _
  rw [← write_isOk_iff (·.union bits) hforetold hgrows]
  constructor
  · rintro ⟨u, hadd⟩
    have hwrite : write key ((t.row key).bytesAfterUnion bits) (·.union bits) t = .ok () u := hadd
    rw [Step.result_of_ok hwrite]
    rfl
  · intro hok
    obtain ⟨⟨⟩, hwrite⟩ := Step.exists_of_isOk hok
    exact ⟨_, hwrite⟩

/-! ## §2 What the contents need -/

/-- The bytes that the contents of a table take at the least: key slots up to the greatest key, but
not fewer than are laid out at once, and the least storage of each row. -/
def leastBytes (t : LinkTable) : Nat :=
  slotBytes * max fewestSlots (t.maxKey?.elim 0 fun key => key.toNat + 1) +
    (t.toList.map fun entry => entry.2.leastBytes).sum

/-- No row and no slot has been laid out but for what is written. -/
structure Economical (t : LinkTable) : Prop where
  wellFormed : t.WellFormed
  exact : t.Exact
  rows : ∀ key, (t.row key).Tight
  /-- The slots are few, or at most twice as many as some row needs to have its own. -/
  slots : t.rows.size ≤ 2 * fewestSlots ∨
    ∃ key, t.row? key ≠ none ∧ t.rows.size ≤ 2 * (key.toNat + 1)

theorem economical_empty (limit : Nat) : (empty limit).Economical where
  wellFormed := wellFormed_empty limit
  exact := exact_empty limit
  rows key := by
    have hrow : (empty limit).row key = .empty := by simp [row, row?, empty]
    rw [hrow]
    exact WordSet.tight_empty
  slots := .inl (Nat.zero_le _)

/-- New slots are for the key that is written to. -/
theorem Economical.written (h : t.Economical) {key : UInt32} {change : WordSet → WordSet}
    (hbounded : (change (t.row key)).Bounded) (htight : (change (t.row key)).Tight) :
    (t.written key change).Economical where
  wellFormed := h.wellFormed.written hbounded
  exact := h.exact.written key change
  rows k := by
    rw [row_written]
    split
    case isTrue => exact htight
    case isFalse => exact h.rows k
  slots := by
    have hsize : (t.written key change).rows.size = (t.roomFor (key.toNat + 1)).rows.size :=
      size_rows_amended t key change
    rw [hsize, size_roomFor]
    split
    case isTrue hmissing =>
      unfold grownSlots
      -- the slots have doubled, or are just enough for the key, which has a row now
      by_cases hfew : key.toNat + 1 ≤ fewestSlots
      · left
        omega
      · refine .inr ⟨key, ?_, by omega⟩
        rw [row?_written, if_pos rfl]
        exact Option.some_ne_none _
    case isFalse =>
      -- the slots are as they were, and no row has gone
      refine h.slots.imp_right fun ⟨k, hrow, hslots⟩ => ⟨k, ?_, hslots⟩
      rw [row?_written]
      split
      case isTrue => exact Option.some_ne_none _
      case isFalse => exact hrow

theorem Economical.written_insert (h : t.Economical) (key bit : UInt32) :
    (t.written key (·.insert bit)).Economical :=
  h.written ((h.wellFormed.rows key).insert bit)
    ((h.rows key).insert (h.wellFormed.rows key) bit)

theorem Economical.written_union (h : t.Economical) (key : UInt32) {bits : WordSet}
    (hbits : bits.Bounded) : (t.written key (·.union bits)).Economical :=
  h.written ((h.wellFormed.rows key).union hbits)
    ((h.rows key).union (h.wellFormed.rows key) hbits)

/-- The slots are at most twice as many as the greatest key needs, or as are laid out at once. -/
theorem Economical.slots_le (h : t.Economical) :
    t.rows.size ≤ 2 * max fewestSlots (t.maxKey?.elim 0 fun key => key.toNat + 1) := by
  rcases h.slots with hfew | ⟨key, hrow, hslots⟩
  · omega
  · have hshows := h.wellFormed.shows
    have hkey : t.rowSets key ≠ none := fun hnone => hrow (rowSets_eq_none_iff.1 hnone)
    -- the row for which the slots were laid out is still there, so its key is no greater
    cases hmax : t.maxKey? with
    | none => exact absurd (hshows.maxKey?_none.1 hmax key) hkey
    | some greatest =>
      have hle : key.toNat ≤ greatest.toNat := ((hshows.maxKey? greatest).1 hmax).2 key hkey
      rw [Option.elim_some]
      omega

/-- A table that is only written to holds at most twice what its contents need. -/
theorem Economical.bytes_le (h : t.Economical) : t.bytes ≤ 2 * t.leastBytes := by
  have hslots := h.slots_le
  -- row by row, no more than twice the least storage is laid out
  have hrows : t.rowBytes ≤ 2 * (t.toList.map fun entry => entry.2.leastBytes).sum := by
    rw [rowBytes_eq_sum_toList, ← List.sum_map_mul_left]
    apply List.sum_le_sum
    rintro ⟨key, row⟩ hentry
    have hrow : t.row key = row := by
      rw [LinkTable.row, (mem_toList h.wellFormed).1 hentry, Option.getD_some]
    exact hrow ▸ h.rows key
  have hcharged : t.charged = t.rowBytes := h.exact
  unfold bytes leastBytes
  simp only [slotBytes]
  omega

/-! ## §3 Histories -/

namespace History

/-- Nothing has been called on the table but to insert members and to add rows. -/
def Writes : History → Prop
  | .new _ => True
  | .clone h | .insert h _ _ | .addRow h _ _ => h.Writes
  | .merge _ _ | .reserve _ _ | .amend _ _ _ => False

theorem charged_of_writes {h : History} (hw : h.Writes) : h.Charged := by
  induction h with
  | new limit => trivial
  | clone h ih => exact ih hw
  | insert h key bit ih => exact ih hw
  | addRow h key bits ih => exact ih hw
  | merge h other => exact hw.elim
  | reserve h wanted => exact hw.elim
  | amend h key writes => exact hw.elim

theorem economical_table {h : History} (hw : h.Writes) : h.table.Economical := by
  -- a refused call leaves the table as it was before or as it is once written
  induction h with
  | new limit => exact economical_empty limit
  | clone h ih => exact ih hw
  | insert h key bit ih =>
    rw [table, after_insert]
    exact holds_after_write Economical (ih hw) ((ih hw).written_insert key bit)
  | addRow h key bits ih =>
    exact holds_after_write Economical (ih hw) ((ih hw).written_union key bits.bounded_set)
  | merge h other => exact hw.elim
  | reserve h wanted => exact hw.elim
  | amend h key writes => exact hw.elim

/-- However members and rows have been written to a table, with or without refusals: a further call
answers if the limit leaves room for twice what the contents need once it has been carried out. -/
theorem answers_of_twice_least (h : History) (hw : h.Writes) :
    (∀ key bit, 2 * (h.table.written key (·.insert bit)).leastBytes ≤ h.limit →
      ∃ fresh u, LinkTable.insert key bit h.table = .ok fresh u) ∧
    ∀ (key : UInt32) (bits : WordSet.History),
      2 * (h.table.written key (·.union bits.set)).leastBytes ≤ h.limit →
        ∃ u, LinkTable.addRow key bits.set h.table = .ok () u := by
  have hlimit := (within_limit_table (charged_of_writes hw)).1
  have heconomical := economical_table hw
  -- once written, the table would hold no more than the limit, which is all that is checked
  constructor
  · intro key bit hroom
    rw [insert_answers_iff, hlimit]
    exact Nat.le_trans (heconomical.written_insert key bit).bytes_le hroom
  · intro key bits hroom
    rw [addRow_answers_iff, hlimit]
    exact Nat.le_trans (heconomical.written_union key bits.bounded_set).bytes_le hroom

/-- A set with 64 words of which it uses eleven. -/
private def slack : WordSet.History := .insert (.withCapacity 4096) 700

/-- A table that has been refused key slots on the way. -/
private def thrift : History :=
  .addRow (.insert (.insert (.new 1600) 3 70) 100 9) 3 slack

theorem answers_of_twice_least_thrift :
    ¬thrift.Unfailing ∧
      2 * (thrift.table.written 20 (·.insert 500)).leastBytes ≤ thrift.limit ∧
      (∃ fresh u, LinkTable.insert 20 500 thrift.table = .ok fresh u) ∧
      2 * (thrift.table.written 5 (·.union slack.set)).leastBytes ≤ thrift.limit ∧
      ∃ u, LinkTable.addRow 5 slack.set thrift.table = .ok () u := by
  have hinsert : 2 * (thrift.table.written 20 (·.insert 500)).leastBytes ≤ thrift.limit := by
    decide +kernel
  have hunion : 2 * (thrift.table.written 5 (·.union slack.set)).leastBytes ≤ thrift.limit := by
    decide +kernel
  exact ⟨by decide +kernel, hinsert, (answers_of_twice_least thrift trivial).1 20 500 hinsert,
    hunion, (answers_of_twice_least thrift trivial).2 5 slack hunion⟩

end History

end Lineage.LinkTable
