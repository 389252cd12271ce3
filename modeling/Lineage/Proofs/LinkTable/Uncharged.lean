import Lineage.Proofs.LinkTable.Accounting

/-!
# Rows that are not charged for

What is written into a row through a reference is not charged, so the rows of a table may take more
bytes than it counts.  It stays behind by just what such writes have made rows grow: charged calls
add what a row grows by, whatever it took before, and nothing is paid back.

The check before a write takes off the bytes of the row before it adds those foretold.  With enough
grown and not charged the row takes more than the table counts, and the difference passes below
zero on the way.  The charge after a write adds first, so it never does.

## Main statements

- `Owes`: how far a table is behind, with one lemma for each call;
- `projected_toNat`: words that wrap around come to the right total all the same;
- `History.behind_table`: when what the check takes off is there to be taken off.
-/

namespace Lineage

/-- Writes through a reference make no set smaller. -/
theorem WordSet.bytes_le_bytes_applyAll (writes : List Edit) (s : WordSet) :
    s.bytes ≤ (applyAll writes s).bytes := by
  -- the writes are made one after the other, and none of them gives storage back
  induction writes generalizing s with
  | nil => exact Nat.le_refl _
  | cons edit writes ih =>
    refine Nat.le_trans ?_ (ih (edit.apply s))
    cases edit with
    | insert b =>
      rw [Edit.apply, bytes_insert]
      exact bytes_le_bytesToFit s _
    | union bits =>
      rw [Edit.apply, bytes_union]
      exact bytes_le_bytesToFit s _

namespace LinkTable

variable {t : LinkTable} {owed : Nat}

/-! ## §1 How far a table is behind -/

/-- The rows take `owed` bytes more than they were charged with. -/
def Owes (t : LinkTable) (owed : Nat) : Prop := t.charged + owed = t.rowBytes

theorem Exact.owes (h : t.Exact) : t.Owes 0 := h

theorem Owes.roomFor (h : t.Owes owed) (wanted : Nat) : (t.roomFor wanted).Owes owed := by
  rw [Owes, charged_roomFor, rowBytes_roomFor]
  exact h

/-- A charge adds what the row has grown by, whether or not the row was charged for before. -/
theorem Owes.written (h : t.Owes owed) {key : UInt32} {change : WordSet → WordSet}
    (hgrows : (t.row key).bytes ≤ (change (t.row key)).bytes) :
    (t.written key change).Owes owed := by
  -- both sides grow by the same, so the difference stays
  have hchange := rowBytes_amended t key change
  change t.charged + (change (t.row key)).bytes - (t.row key).bytes + owed =
    (t.amended key change).rowBytes
  unfold Owes at h
  omega

/-- What a row grows by without being charged is owed. -/
theorem Owes.amended (h : t.Owes owed) {key : UInt32} {change : WordSet → WordSet}
    (hgrows : (t.row key).bytes ≤ (change (t.row key)).bytes) :
    (t.amended key change).Owes
      (owed + (((t.amended key change).row key).bytes - (t.row key).bytes)) := by
  have hchange := rowBytes_amended t key change
  have hcharged : (t.amended key change).charged = t.charged := charged_roomFor t _
  -- the sum grows and the charge does not
  rw [Owes, hcharged, row_amended, if_pos rfl]
  unfold Owes at h
  omega

theorem Owes.after_reserve (h : t.Owes owed) (wanted : Nat) :
    ((reserve wanted).after t).Owes owed :=
  holds_after_reserve (·.Owes owed) h (h.roomFor wanted)

theorem Owes.after_insert (h : t.Owes owed) (key bit : UInt32) :
    ((LinkTable.insert key bit).after t).Owes owed := by
  rw [LinkTable.after_insert]
  refine holds_after_write (·.Owes owed) h (h.written ?_)
  rw [WordSet.bytes_insert]
  exact WordSet.bytes_le_bytesToFit _ _

theorem Owes.after_addRow (h : t.Owes owed) (key : UInt32) (bits : WordSet) :
    ((LinkTable.addRow key bits).after t).Owes owed := by
  refine holds_after_write (·.Owes owed) h (h.written ?_)
  rw [WordSet.bytes_union]
  exact WordSet.bytes_le_bytesToFit _ _

/-- What the rows of the other table owe stays with it: they are charged anew. -/
theorem Owes.after_mergeRows (h : t.Owes owed) (other : LinkTable)
    (rows : List (UInt32 × WordSet)) : ((mergeRows other rows).after t).Owes owed :=
  after_mergeRows_induction (·.Owes owed) h h.after_reserve fun entry _ _ hu =>
    hu.after_addRow entry.1 entry.2

theorem Owes.after_amend (h : t.Owes owed) (key : UInt32) (writes : List WordSet.Edit) :
    ((amend key (WordSet.applyAll writes)).after t).Owes
      (owed + ((((amend key (WordSet.applyAll writes)).after t).row key).bytes -
        (t.row key).bytes)) := by
  rw [LinkTable.after_amend]
  split
  case isTrue =>
    -- a row that is not created takes no writes
    rw [Nat.sub_self]
    exact h
  case isFalse => exact h.amended (WordSet.bytes_le_bytes_applyAll writes _)

/-! ## §2 The total that the check projects -/

/-- The total that a check of a row to be grown to `rowBytes` bytes comes to in words that wrap
around: the bytes of the row are taken off first. -/
def projected (t : LinkTable) (key : UInt32) (rowBytes : Nat) : UInt64 :=
  UInt64.ofNat t.bytes - UInt64.ofNat (t.row key).bytes + UInt64.ofNat rowBytes

/-- A total that has passed below zero on the way is right again in the end. -/
theorem projected_toNat {key : UInt32} {rowBytes : Nat} (hgrows : (t.row key).bytes ≤ rowBytes)
    (hfits : t.bytes + rowBytes - (t.row key).bytes < UInt64.size) :
    (t.projected key rowBytes).toNat = t.bytes + rowBytes - (t.row key).bytes := by
  have hsplit : t.bytes + rowBytes - (t.row key).bytes =
      t.bytes + (rowBytes - (t.row key).bytes) := by
    omega
  -- in words that wrap around, what is taken off and what is added may change places
  have htotal : t.projected key rowBytes =
      UInt64.ofNat (t.bytes + rowBytes - (t.row key).bytes) := by
    rw [hsplit, UInt64.ofNat_add, UInt64.ofNat_sub hgrows, projected, UInt64.sub_eq_add_neg,
      UInt64.sub_eq_add_neg, UInt64.add_assoc, UInt64.add_comm (-_)]
  rw [htotal, UInt64.toNat_ofNat_of_lt' hfits]

/-- The check of a row takes off no more than the table holds exactly as long as what is owed is
made up for by the key slots and the other rows. -/
theorem Owes.covers_row_iff (h : t.Owes owed) (key : UInt32) :
    (t.row key).bytes ≤ t.bytes ↔
      owed ≤ t.rows.size * slotBytes + (t.rowBytes - (t.row key).bytes) := by
  have hrow := bytes_row_le_rowBytes t key
  unfold Owes at h
  unfold bytes
  omega

/-- What becomes of the checks on a table that is `owed` bytes behind. -/
structure Behind (t : LinkTable) (owed : Nat) : Prop where
  covers : ∀ key, (t.row key).bytes ≤ t.bytes ↔
    owed ≤ t.rows.size * slotBytes + (t.rowBytes - (t.row key).bytes)
  /-- Whether or not the difference passes below zero, the total is that of the check. -/
  total : ∀ key rowBytes, (t.row key).bytes ≤ rowBytes →
    t.bytes + rowBytes - (t.row key).bytes < UInt64.size →
    (t.projected key rowBytes).toNat = t.bytes + rowBytes - (t.row key).bytes

theorem Owes.behind (h : t.Owes owed) : t.Behind owed where
  covers := h.covers_row_iff
  total _ _ := projected_toNat

/-! ## §3 Histories -/

namespace History

/-- The bytes by which writes through references have made rows grow. -/
def uncharged : History → Nat
  | .new _ => 0
  | .clone h | .insert h _ _ | .addRow h _ _ | .merge h _ | .reserve h _ => h.uncharged
  | .amend h key writes =>
    h.uncharged + (((History.amend h key writes).table.row key).bytes - (h.table.row key).bytes)

theorem owes_table (h : History) : h.table.Owes h.uncharged := by
  -- only a write through a reference adds to what is owed
  induction h with
  | new limit => exact (exact_empty limit).owes
  | clone h ih => exact ih
  | insert h key bit ih => exact ih.after_insert key bit
  | addRow h key bits ih => exact ih.after_addRow key bits.set
  | merge h other ih ihOther => exact ih.after_mergeRows other.table _
  | reserve h wanted ih => exact ih.after_reserve wanted
  | amend h key writes ih => exact ih.after_amend key writes

/-- Nothing is owed for a row that is only created. -/
theorem uncharged_of_charged {h : History} (hc : h.Charged) : h.uncharged = 0 := by
  have howes := owes_table h
  -- a table that is charged right is not behind, and it is behind by what is owed
  have hexact : h.table.charged = h.table.rowBytes := exact_table hc
  unfold Owes at howes
  omega

/-- However a table has come about, also in the midst of a merge, it is behind by what references
have made rows grow: nothing, if no row was written through one.  As long as its key slots and other
rows make up for that, a check takes off what is there, and in any case its total is right. -/
theorem behind_table (h : History) :
    h.table.Behind h.uncharged ∧
      (∀ other rows, ((mergeRows other rows).after h.table).Behind h.uncharged) ∧
      (h.Charged → h.uncharged = 0) :=
  ⟨(owes_table h).behind,
    fun other rows => ((owes_table h).after_mergeRows other rows).behind,
    uncharged_of_charged⟩

/-- A row of 448 bytes in a table that counts no more than its 16 key slots. -/
private def loan : History := .amend (.new 1000000) 0 [.insert 3072]

/-- A row one word block shorter, which the key slots just make up for. -/
private def covered : History := .amend (.new 1000000) 0 [.insert 3071]

private theorem loan_bytes : loan.table.bytes = 384 ∧ (loan.table.row 0).bytes = 448 ∧
    (loan.table.row 0).bytesAfterInsert 3584 = 896 := by
  decide +kernel

private theorem covered_uncharged : covered.uncharged = 384 ∧
    covered.table.rows.size * slotBytes = 384 := by
  decide +kernel

theorem behind_table_loan :
    (loan.table.projected 0 896).toNat = 832 ∧
      (covered.table.row 0).bytes ≤ covered.table.bytes := by
  obtain ⟨hbytes, hrow, -⟩ := loan_bytes
  obtain ⟨howed, hslots⟩ := covered_uncharged
  constructor
  · have htotal := (behind_table loan).1.total 0 896 (by omega)
    rw [hbytes, hrow] at htotal
    exact htotal (by decide)
  · apply ((behind_table covered).1.covers 0).2
    omega

/-- A row that has to grow may take more bytes than its table counts, so that the check takes off
more than there is. -/
theorem check_passes_below_zero : ¬∀ (h : History) (key bit : UInt32),
    (h.table.row key).bytes < (h.table.row key).bytesAfterInsert bit →
      (h.table.row key).bytes ≤ h.table.bytes := by
  intro hcovers
  obtain ⟨hbytes, hrow, hafter⟩ := loan_bytes
  have hloan := hcovers loan 0 3584 (by omega)
  omega

end History

end LinkTable

end Lineage
