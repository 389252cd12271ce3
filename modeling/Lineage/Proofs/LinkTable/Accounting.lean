import Lineage.Proofs.LinkTable.History

/-!
# The books of a link table

A table keeps one number for what its rows take.  A write adds the bytes of the row after it and
takes off those of before; key slots grow apart from that and are counted by their number.  As long
as rows are only written through calls that charge them, the number is the sum over the rows at any
time, also after calls that have failed, and in the midst of a merge.

## Main statements

- `rowBytes_amended`: a change of a row changes the sum by this row alone;
- `Exact`: what the rows are charged with is what they take, with one lemma for each call;
- `Balanced`: what follows for the readings that are taken from a table;
- `History.balanced_table`: the books of every table that calls reach.
-/

namespace Lineage.LinkTable

/-! ## §1 The bytes of the rows -/

/-- The bytes that the rows take, slot by slot. -/
def rowBytes (t : LinkTable) : Nat := (t.rows.toList.map fun slot => (slot.getD .empty).bytes).sum

variable {t : LinkTable}

/-- Empty slots take nothing beside their own bytes, so it is enough to add up the rows. -/
theorem rowBytes_eq_sum_toList (t : LinkTable) :
    t.rowBytes = (t.toList.map fun entry => entry.2.bytes).sum := by
  have hslots (slots : List (Option WordSet)) (n : Nat) :
      (slots.map fun slot => (slot.getD .empty).bytes).sum =
        (((slots.zipIdx n).filterMap fun slot =>
          slot.1.map fun bits => (UInt32.ofNat slot.2, bits)).map fun entry => entry.2.bytes).sum := by
    -- the keys are carried along and do not count
    induction slots generalizing n with
    | nil => rfl
    | cons slot slots ih =>
      rw [List.map_cons, List.sum_cons, ih (n + 1), List.zipIdx_cons]
      cases slot with
      | none => simp [WordSet.bytes, WordSet.empty]
      | some row => simp
  exact hslots t.rows.toList 0

theorem rowBytes_roomFor (t : LinkTable) (wanted : Nat) :
    (t.roomFor wanted).rowBytes = t.rowBytes := by
  unfold rowBytes roomFor
  split
  case isTrue => simp [WordSet.bytes, WordSet.empty]
  case isFalse => rfl

/-- A change of a row changes the sum by that row alone. -/
theorem rowBytes_amended (t : LinkTable) (key : UInt32) (change : WordSet → WordSet) :
    (t.amended key change).rowBytes + (t.row key).bytes =
      t.rowBytes + (change (t.row key)).bytes := by
  have hroom : key.toNat < (t.roomFor (key.toNat + 1)).rows.toList.length :=
    le_size_roomFor t (key.toNat + 1)
  -- once there is room, the row is a slot in the list, and one slot changes
  have hsum := sum_map_modify (fun slot => (slot.getD .empty).bytes)
    (fun row => some (change (row.getD .empty))) hroom
  rw [getElem_roomFor t key hroom] at hsum
  rw [← rowBytes_roomFor t (key.toNat + 1)]
  simpa only [rowBytes, amended, row, Array.toList_modify, Option.getD_some] using hsum

theorem bytes_row_le_rowBytes (t : LinkTable) (key : UInt32) :
    (t.row key).bytes ≤ t.rowBytes := by
  -- clearing the row would take its bytes off the sum
  have hcleared := rowBytes_amended t key fun _ => .empty
  have hnothing : WordSet.empty.bytes = 0 := rfl
  omega

/-! ## §2 Steps that keep the books -/

/-- The rows are charged with what they take. -/
def Exact (t : LinkTable) : Prop := t.charged = t.rowBytes

theorem exact_empty (limit : Nat) : (empty limit).Exact := rfl

theorem Exact.roomFor (h : t.Exact) (wanted : Nat) : (t.roomFor wanted).Exact := by
  rw [Exact, charged_roomFor, rowBytes_roomFor]
  exact h

/-- A charge takes off what the row was charged with before, which is part of the sum. -/
theorem Exact.written (h : t.Exact) (key : UInt32) (change : WordSet → WordSet) :
    (t.written key change).Exact := by
  have hchange := rowBytes_amended t key change
  -- or else the subtraction would stop at zero
  have hrow := bytes_row_le_rowBytes t key
  change t.charged + (change (t.row key)).bytes - (t.row key).bytes =
    (t.amended key change).rowBytes
  unfold Exact at h
  omega

/-- A row that is created takes nothing yet, so it need not be charged. -/
theorem Exact.amended_id (h : t.Exact) (key : UInt32) : (t.amended key id).Exact := by
  have hchange := rowBytes_amended t key id
  have hcharged : (t.amended key id).charged = t.charged := charged_roomFor t _
  unfold Exact at h ⊢
  rw [hcharged]
  -- the sum is as it was, and so is the charge
  simp only [id] at hchange
  omega

theorem Exact.after_write (h : t.Exact) (key : UInt32) (rowBytes : Nat)
    (change : WordSet → WordSet) : ((write key rowBytes change).after t).Exact :=
  holds_after_write Exact h (h.written key change)

theorem Exact.after_reserve (h : t.Exact) (wanted : Nat) : ((reserve wanted).after t).Exact :=
  holds_after_reserve Exact h (h.roomFor wanted)

theorem Exact.after_create (h : t.Exact) (key : UInt32) : ((amend key id).after t).Exact :=
  holds_after_amend Exact h (h.amended_id key)

theorem Exact.after_mergeRows (h : t.Exact) (other : LinkTable)
    (rows : List (UInt32 × WordSet)) : ((mergeRows other rows).after t).Exact :=
  after_mergeRows_induction Exact h h.after_reserve fun entry _ _ hu =>
    hu.after_write entry.1 _ (·.union entry.2)

/-! ## §3 What the readings come to -/

/-- What is read from a table before a check and about a charge is right: the bytes held, and both
numbers from which the bytes of a row are taken off. -/
structure Balanced (t : LinkTable) : Prop where
  bytes : t.bytes = t.rows.size * slotBytes + (t.toList.map fun entry => entry.2.bytes).sum
  check : ∀ key, (t.row key).bytes ≤ t.bytes
  charge : ∀ key change,
    (t.row key).bytes ≤ (t.amended key change).charged + (change (t.row key)).bytes

theorem Exact.balanced (h : t.Exact) : t.Balanced where
  bytes := by rw [LinkTable.bytes, h, rowBytes_eq_sum_toList]
  check key := by
    have hrow := bytes_row_le_rowBytes t key
    rw [LinkTable.bytes, h]
    omega
  -- the charge adds the bytes after the change before it takes off those before
  charge key change := by
    have hrow := bytes_row_le_rowBytes t key
    have hcharged : (t.amended key change).charged = t.charged := charged_roomFor t _
    rw [hcharged, h]
    omega

/-- A step keeps the limit that a table was made with, and takes no table over it unless it
fails. -/
theorem Metered.within_limit {α : Type} {x : Step LinkTable α} (hx : Metered x t) {limit : Nat}
    {unfailing : Prop} (h : t.limit = limit ∧ (unfailing → t.bytes ≤ t.limit)) :
    (x.after t).limit = limit ∧
      (unfailing ∧ (x.result t).isOk = true → (x.after t).bytes ≤ (x.after t).limit) := by
  refine ⟨hx.limit.trans h.1, ?_⟩
  rintro ⟨hearlier, hok⟩
  rw [hx.limit, hx.within (h.2 hearlier)]
  -- failing late is a way to fail
  rintro ⟨held, hfault⟩
  rw [hfault] at hok
  cases hok

/-! ## §4 Histories -/

namespace History

/-- Nothing has been written into a row that was not charged for. -/
def Charged : History → Prop
  | .new _ => True
  | .clone h | .insert h _ _ | .addRow h _ _ | .merge h _ | .reserve h _ => h.Charged
  | .amend h _ writes => h.Charged ∧ writes = []

/-- No call on the table has failed. -/
def Unfailing : History → Prop
  | .new _ => True
  | .clone h => h.Unfailing
  | .insert h key bit => h.Unfailing ∧ ((LinkTable.insert key bit).result h.table).isOk
  | .addRow h key bits => h.Unfailing ∧ ((LinkTable.addRow key bits.set).result h.table).isOk
  | .merge h other => h.Unfailing ∧ ((LinkTable.merge other.table).result h.table).isOk
  | .reserve h wanted => h.Unfailing ∧ ((LinkTable.reserve wanted).result h.table).isOk
  | .amend h key writes =>
    h.Unfailing ∧ ((LinkTable.amend key (WordSet.applyAll writes)).result h.table).isOk

/-- The limit that a table was made with. -/
def limit : History → Nat
  | .new limit => limit
  | .clone h | .insert h _ _ | .addRow h _ _ | .merge h _ | .reserve h _ | .amend h _ _ => h.limit

/-- A table that is merged in may be charged wrongly: its rows are charged anew. -/
theorem exact_table {h : History} (hc : h.Charged) : h.table.Exact := by
  -- failed calls leave a table that is charged right, too
  induction h with
  | new limit => exact exact_empty limit
  | clone h ih => exact ih hc
  | insert h key bit ih =>
    rw [table, after_insert]
    exact (ih hc).after_write key _ _
  | addRow h key bits ih => exact (ih hc).after_write key _ _
  | merge h other ih ihOther => exact (ih hc).after_mergeRows other.table _
  | reserve h wanted ih => exact (ih hc).after_reserve wanted
  | amend h key writes ih =>
    obtain ⟨hc, rfl⟩ := hc
    exact (ih hc).after_create key

theorem within_limit_table {h : History} (hc : h.Charged) :
    h.table.limit = h.limit ∧ (h.Unfailing → h.table.bytes ≤ h.table.limit) := by
  induction h with
  | new limit => exact ⟨rfl, fun _ => Nat.zero_le limit⟩
  | clone h ih => exact ih hc
  | insert h key bit ih => exact (metered_insert key bit).within_limit (ih hc)
  | addRow h key bits ih => exact (metered_addRow key bits.set).within_limit (ih hc)
  | merge h other ih ihOther => exact (metered_merge other.table).within_limit (ih hc)
  | reserve h wanted ih => exact (metered_reserve wanted).within_limit (ih hc)
  | amend h key writes ih =>
    obtain ⟨hc, rfl⟩ := hc
    exact (metered_create key).within_limit (ih hc)

/-- Carrying out the calls tells whether one of them fails. -/
instance decidableUnfailing : (h : History) → Decidable h.Unfailing
  | .new _ => .isTrue trivial
  | .clone h => h.decidableUnfailing
  | .insert h _ _ | .addRow h _ _ | .merge h _ | .reserve h _ | .amend h _ _ =>
    have := h.decidableUnfailing
    inferInstanceAs (Decidable (_ ∧ _))

/-- The books of every table are right that is only written through calls that charge it, whichever
of them have failed, and they stay right while another table is merged in, up to any of its rows.
Without a failure the table stays within the limit that it was made with. -/
theorem balanced_table (h : History) (hc : h.Charged) :
    h.table.Balanced ∧ (∀ other rows, ((mergeRows other rows).after h.table).Balanced) ∧
      h.table.limit = h.limit ∧ (h.Unfailing → h.table.bytes ≤ h.table.limit) := by
  have hexact := exact_table hc
  exact ⟨hexact.balanced, fun other rows => (hexact.after_mergeRows other rows).balanced,
    within_limit_table hc⟩

/-- Rows written in all ways that are charged, and a merge with a table that has a row of its own
that is not. -/
private def ledger : History :=
  .merge
    (.clone (.amend (.addRow (.insert (.reserve (.new 8192) 5) 3 70) 40 (.ofList [600])) 7 []))
    (.amend (.insert (.new 4096) 3 5) 9 [.insert 64])

/-- A table that refuses a row, and has it all the same. -/
private def overdrawn : History := .reserve (.insert (.new 384) 0 0) 40

theorem balanced_table_ledger :
    (ledger.table.Balanced ∧ ledger.table.bytes ≤ ledger.table.limit) ∧
      overdrawn.table.Balanced ∧ ¬overdrawn.Unfailing ∧ overdrawn.table.bytes = 448 :=
  ⟨⟨(balanced_table ledger ⟨trivial, rfl⟩).1,
      (balanced_table ledger ⟨trivial, rfl⟩).2.2.2 (by decide +kernel)⟩,
    (balanced_table overdrawn trivial).1, by decide +kernel, by decide +kernel⟩

end History

end Lineage.LinkTable
