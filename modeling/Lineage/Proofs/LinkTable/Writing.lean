import Lineage.LinkTable.Basic
import Lineage.Proofs.Steps
import Lineage.Proofs.WordSet.Listing

/-!
# What writing does to a link table

Every write passes three checks in turn: the row, the key slots, and the total once the row is
written.  `write_apply` says for each outcome which state is left, as one equation; everything
else about writing follows from it.

## Main statements

- `write_apply`, `reserve_apply`: all outcomes of the writing steps;
- `row?_written`: only the row written to changes;
- `Gains`: what a step that answers has added, with one lemma for each of `insert`, `addRow`,
  `reserve` and `merge`.
-/

namespace Lineage.LinkTable

/-! ## §1 The states that steps leave -/

/-- A table with key slots laid out so that `wanted` keys fit. -/
def roomFor (t : LinkTable) (wanted : Nat) : LinkTable :=
  if t.rows.size < wanted then
    { t with rows := t.rows ++ Array.replicate (t.grownSlots wanted - t.rows.size) none }
  else t

/-- A table after the row of a key was changed without charging it. -/
def amended (t : LinkTable) (key : UInt32) (change : WordSet → WordSet) : LinkTable :=
  { t.roomFor (key.toNat + 1) with
    rows := (t.roomFor (key.toNat + 1)).rows.modify key.toNat fun row =>
      some (change (row.getD .empty))
    size := if (t.row? key).isNone then t.size + 1 else t.size }

/-- A table after the row of a key was changed and charged. -/
def written (t : LinkTable) (key : UInt32) (change : WordSet → WordSet) : LinkTable :=
  { t.amended key change with
    charged := t.charged + (change (t.row key)).bytes - (t.row key).bytes }

/-- The key slots may not grow as far as `wanted` keys need. -/
def SlotsRefused (t : LinkTable) (wanted : Nat) : Prop :=
  t.rows.size < wanted ∧ t.limit < (t.roomFor wanted).bytes

/-- The row of a key may not grow to `rowBytes` bytes beside the present key slots. -/
def RowRefused (t : LinkTable) (key : UInt32) (rowBytes : Nat) : Prop :=
  (t.row key).bytes < rowBytes ∧ t.limit < t.bytes + rowBytes - (t.row key).bytes

instance (t : LinkTable) (wanted : Nat) : Decidable (t.SlotsRefused wanted) :=
  inferInstanceAs (Decidable (_ ∧ _))

instance (t : LinkTable) (key : UInt32) (rowBytes : Nat) : Decidable (t.RowRefused key rowBytes) :=
  inferInstanceAs (Decidable (_ ∧ _))

/-! ## §2 Room -/

@[simp] theorem limit_roomFor (t : LinkTable) (wanted : Nat) :
    (t.roomFor wanted).limit = t.limit := by
  unfold roomFor
  split <;> rfl

@[simp] theorem charged_roomFor (t : LinkTable) (wanted : Nat) :
    (t.roomFor wanted).charged = t.charged := by
  unfold roomFor
  split <;> rfl

/-- No row is created by laying out slots. -/
@[simp] theorem roomFor_size (t : LinkTable) (wanted : Nat) :
    (t.roomFor wanted).size = t.size := by
  unfold roomFor
  split <;> rfl

/-- Either the slots suffice or as many are laid out as growth asks for. -/
theorem size_roomFor (t : LinkTable) (wanted : Nat) :
    (t.roomFor wanted).rows.size = if t.rows.size < wanted then t.grownSlots wanted
      else t.rows.size := by
  unfold roomFor
  split
  case isTrue =>
    -- slots are only added, so growth is at least what was there
    have hgrown : t.rows.size ≤ t.grownSlots wanted := by
      unfold grownSlots
      omega
    simp only [Array.size_append, Array.size_replicate]
    omega
  case isFalse => rfl

theorem le_size_roomFor (t : LinkTable) (wanted : Nat) : wanted ≤ (t.roomFor wanted).rows.size := by
  rw [size_roomFor]
  unfold grownSlots
  split <;> omega

theorem size_le_size_roomFor (t : LinkTable) (wanted : Nat) :
    t.rows.size ≤ (t.roomFor wanted).rows.size := by
  rw [size_roomFor]
  unfold grownSlots
  split <;> omega

/-- New slots are empty, like missing ones. -/
@[simp] theorem join_getElem?_roomFor (t : LinkTable) (wanted i : Nat) :
    (t.roomFor wanted).rows[i]?.join = t.rows[i]?.join := by
  unfold roomFor
  split
  case isTrue =>
    simp only [Array.getElem?_append, Array.getElem?_replicate]
    -- an old slot is where it was, and a new one holds nothing
    by_cases hi : i < t.rows.size
    · simp [hi]
    · simp only [hi, if_false, Array.getElem?_eq_none (Nat.le_of_not_lt hi)]
      split <;> rfl
  case isFalse => rfl

@[simp] theorem row?_roomFor (t : LinkTable) (wanted : Nat) (key : UInt32) :
    (t.roomFor wanted).row? key = t.row? key :=
  join_getElem?_roomFor t wanted key.toNat

@[simp] theorem row_roomFor (t : LinkTable) (wanted : Nat) (key : UInt32) :
    (t.roomFor wanted).row key = t.row key := by
  simp [row]

theorem growSlots_apply (t : LinkTable) (wanted : Nat) (hroom : t.rows.size < wanted) :
    growSlots wanted t =
      if t.limit < (t.roomFor wanted).bytes then
        .error (.growth (.slots wanted (t.roomFor wanted).bytes t.limit)) t
      else .ok () (t.roomFor wanted) := by
  have hbytes : (t.roomFor wanted).bytes = t.grownSlots wanted * slotBytes + t.charged := by
    rw [bytes, size_roomFor, if_pos hroom, charged_roomFor]
  have hroomy : t.roomFor wanted =
      { t with rows := t.rows ++ Array.replicate (t.grownSlots wanted - t.rows.size) none } :=
    if_pos hroom
  -- the check adds up the bytes before the slots are laid out
  rw [hbytes, hroomy]
  change (if t.limit < t.grownSlots wanted * slotBytes + t.charged then
    (_ : Step LinkTable Unit) else _) t = _
  split <;> rfl

theorem reserve_apply (t : LinkTable) (wanted : Nat) :
    reserve wanted t =
      if t.SlotsRefused wanted then
        .error (.growth (.slots wanted (t.roomFor wanted).bytes t.limit)) t
      else .ok () (t.roomFor wanted) := by
  change (if t.rows.size < wanted then growSlots wanted else pure ()) t = _
  by_cases hroom : t.rows.size < wanted
  · -- too few slots: the limit decides, and it is asked before they are laid out
    rw [if_pos hroom, growSlots_apply t wanted hroom]
    simp only [SlotsRefused, hroom, true_and]
  · -- enough slots: nothing is laid out, and nothing can be refused
    have hsame : t.roomFor wanted = t := if_neg hroom
    rw [if_neg hroom, hsame]
    simp only [SlotsRefused, hroom, false_and, if_false]
    rfl

/-! ## §3 Writes -/

theorem checkRow_apply (t : LinkTable) (key : UInt32) (rowBytes : Nat) :
    checkRow key rowBytes t =
      if t.RowRefused key rowBytes then
        .error (.growth (.row key rowBytes (t.bytes + rowBytes - (t.row key).bytes) t.limit)) t
      else .ok () t := by
  change (if (t.row key).bytes < rowBytes then
    (if t.limit < t.bytes + rowBytes - (t.row key).bytes then _ else (pure () : Step LinkTable Unit))
    else pure ()) t = _
  -- a row that does not grow is not checked
  by_cases hgrows : (t.row key).bytes < rowBytes
  · rw [if_pos hgrows]
    simp only [RowRefused, hgrows, true_and]
    split <;> rfl
  · simp only [RowRefused, hgrows, false_and, if_false]
    rfl

theorem amend_apply (t : LinkTable) (key : UInt32) (change : WordSet → WordSet) :
    amend key change t =
      if t.SlotsRefused (key.toNat + 1) then
        .error (.growth (.slots (key.toNat + 1) (t.roomFor (key.toNat + 1)).bytes t.limit)) t
      else .ok () (t.amended key change) := by
  have hreserve := reserve_apply t (key.toNat + 1)
  unfold amend
  by_cases hslots : t.SlotsRefused (key.toNat + 1)
  · rw [if_pos hslots] at hreserve ⊢
    exact Step.bind_of_error hreserve
  · rw [if_neg hslots] at hreserve ⊢
    rw [Step.bind_of_ok hreserve]
    -- whether the row is there is asked once there is room, which makes no difference
    have hamended : t.amended key change =
        { t.roomFor (key.toNat + 1) with
          rows := (t.roomFor (key.toNat + 1)).rows.modify key.toNat fun row =>
            some (change (row.getD .empty))
          size := if ((t.roomFor (key.toNat + 1)).row? key).isNone then
            (t.roomFor (key.toNat + 1)).size + 1 else (t.roomFor (key.toNat + 1)).size } := by
      rw [row?_roomFor, roomFor_size]
      rfl
    rw [hamended]
    rfl

/-- Creating a row and writing into it without being charged, whether or not the slots may grow. -/
theorem after_amend (t : LinkTable) (key : UInt32) (change : WordSet → WordSet) :
    (amend key change).after t =
      if t.SlotsRefused (key.toNat + 1) then t else t.amended key change := by
  unfold Step.after
  rw [amend_apply]
  by_cases hslots : t.SlotsRefused (key.toNat + 1)
  · simp only [hslots, if_true]
  · simp only [hslots, if_false]

/-- What holds of a table and of the table changed holds after the change, refused or not. -/
theorem holds_after_amend {t : LinkTable} {key : UInt32} {change : WordSet → WordSet}
    (I : LinkTable → Prop) (same : I t) (changed : I (t.amended key change)) :
    I ((amend key change).after t) := by
  rw [after_amend]
  split
  case isTrue => exact same
  case isFalse => exact changed

@[simp] theorem limit_amended (t : LinkTable) (key : UInt32) (change : WordSet → WordSet) :
    (t.amended key change).limit = t.limit := by
  simp [amended]

@[simp] theorem limit_written (t : LinkTable) (key : UInt32) (change : WordSet → WordSet) :
    (t.written key change).limit = t.limit := by
  simp [written]

theorem charge_apply {t u : LinkTable} {before now : Nat}
    (hu : u = { t with charged := t.charged + now - before }) :
    charge before now t =
      if u.limit < u.bytes then .error (.growth (.table u.bytes u.limit)) u else .ok () u := by
  subst hu
  change (if _ < LinkTable.bytes { t with charged := _ } then
    (Step.fail _ : Step LinkTable Unit) else pure ()) _ = _
  split <;> rfl

/-- All outcomes of a write.  The first two checks leave the table as it is, the last one comes too
late for that. -/
theorem write_apply (t : LinkTable) (key : UInt32) (rowBytes : Nat) (change : WordSet → WordSet) :
    write key rowBytes change t =
      if t.RowRefused key rowBytes then
        .error (.growth (.row key rowBytes (t.bytes + rowBytes - (t.row key).bytes) t.limit)) t
      else if t.SlotsRefused (key.toNat + 1) then
        .error (.growth (.slots (key.toNat + 1) (t.roomFor (key.toNat + 1)).bytes t.limit)) t
      else if t.limit < (t.written key change).bytes then
        .error (.growth (.table (t.written key change).bytes t.limit)) (t.written key change)
      else .ok () (t.written key change) := by
  have hcheck := checkRow_apply t key rowBytes
  have hamend := amend_apply t key change
  unfold write
  by_cases hrow : t.RowRefused key rowBytes
  · rw [if_pos hrow] at hcheck ⊢
    exact Step.bind_of_error hcheck
  · rw [if_neg hrow] at hcheck ⊢
    rw [Step.bind_of_ok hcheck, Step.bind_of_ok (show (get : Step LinkTable _) t = .ok t t from rfl)]
    by_cases hslots : t.SlotsRefused (key.toNat + 1)
    · rw [if_pos hslots] at hamend ⊢
      exact Step.bind_of_error hamend
    · rw [if_neg hslots] at hamend ⊢
      -- past both early checks the change is made, whatever the last check says
      have hu : t.written key change = { t.amended key change with charged :=
          (t.amended key change).charged + (change (t.row key)).bytes - (t.row key).bytes } := by
        simp [written, amended]
      have hcharge := charge_apply hu
      rw [limit_written] at hcharge
      rw [Step.bind_of_ok hamend]
      exact hcharge

/-- A write that answers leaves the written table, within the limit. -/
theorem write_eq_ok {t u : LinkTable} {key : UInt32} {rowBytes : Nat} {change : WordSet → WordSet}
    {a : Unit} (h : write key rowBytes change t = .ok a u) :
    u = t.written key change ∧ u.bytes ≤ t.limit := by
  rw [write_apply] at h
  split at h
  case isTrue => cases h
  case isFalse =>
    split at h
    case isTrue => cases h
    case isFalse =>
      split at h
      case isTrue => cases h
      case isFalse hlimit =>
        cases h
        exact ⟨rfl, Nat.le_of_not_lt hlimit⟩

/-- What a write leaves: the table as it was if one of the first two checks fails, and the table
written otherwise. -/
theorem after_write (t : LinkTable) (key : UInt32) (rowBytes : Nat)
    (change : WordSet → WordSet) :
    (write key rowBytes change).after t =
      if t.RowRefused key rowBytes ∨ t.SlotsRefused (key.toNat + 1) then t
      else t.written key change := by
  unfold Step.after
  rw [write_apply]
  by_cases hrow : t.RowRefused key rowBytes
  · simp [hrow]
  · by_cases hslots : t.SlotsRefused (key.toNat + 1)
    · simp [hrow, hslots]
    · by_cases hover : t.limit < (t.written key change).bytes
      · simp [hrow, hslots, hover]
      · simp [hrow, hslots, hover]

/-- What holds of a table and of the table written holds after the write, whichever check may refuse
it. -/
theorem holds_after_write {t : LinkTable} {key : UInt32} {rowBytes : Nat}
    {change : WordSet → WordSet} (I : LinkTable → Prop) (same : I t)
    (changed : I (t.written key change)) : I ((write key rowBytes change).after t) := by
  rw [after_write]
  split
  case isTrue => exact same
  case isFalse => exact changed

/-! ## §4 Rows after a write -/

theorem row?_amended (t : LinkTable) (key : UInt32) (change : WordSet → WordSet) (k : UInt32) :
    (t.amended key change).row? k = if k = key then some (change (t.row key)) else t.row? k := by
  have hroom := le_size_roomFor t (key.toNat + 1)
  have hrow : (t.roomFor (key.toNat + 1)).row? k = t.row? k := row?_roomFor t _ k
  unfold row? at hrow
  simp only [row?, amended, Array.getElem?_modify]
  by_cases hk : k = key
  · subst hk
    -- the slot is there once there is room, so the change finds it
    have hstored : k.toNat < (t.roomFor (k.toNat + 1)).rows.size := by omega
    rw [Array.getElem?_eq_getElem hstored] at hrow ⊢
    simp only [Option.join_some] at hrow
    simp [row, row?, hrow]
  · have hne : key.toNat ≠ k.toNat := fun h => hk (UInt32.toNat_inj.1 h.symm)
    simp only [hne, if_false, hk, hrow]

theorem row?_written (t : LinkTable) (key : UInt32) (change : WordSet → WordSet) (k : UInt32) :
    (t.written key change).row? k = if k = key then some (change (t.row key)) else t.row? k :=
  row?_amended t key change k

theorem row_amended (t : LinkTable) (key : UInt32) (change : WordSet → WordSet) (k : UInt32) :
    (t.amended key change).row k = if k = key then change (t.row key) else t.row k := by
  unfold row
  rw [row?_amended]
  split <;> rfl

theorem row_written (t : LinkTable) (key : UInt32) (change : WordSet → WordSet) (k : UInt32) :
    (t.written key change).row k = if k = key then change (t.row key) else t.row k :=
  row_amended t key change k

theorem size_rows_amended (t : LinkTable) (key : UInt32) (change : WordSet → WordSet) :
    (t.amended key change).rows.size = (t.roomFor (key.toNat + 1)).rows.size := by
  simp [amended]

/-! ## §5 Tables that hold what 32-bit numbers address -/

/-- No row is stored past the last key, and no bit past the last member, and every row has been
counted. -/
structure WellFormed (t : LinkTable) : Prop where
  keys : ∀ i, UInt32.size ≤ i → t.rows[i]?.join = none
  rows : ∀ key, (t.row key).Bounded
  size : t.size = t.rows.toList.countP Option.isSome

theorem wellFormed_empty (limit : Nat) : (empty limit).WellFormed where
  keys i _ := by simp [empty]
  rows key := by
    have hrow : (empty limit).row key = .empty := by simp [row, row?, empty]
    rw [hrow]
    exact WordSet.bounded_empty
  size := rfl

/-- Changing one member of a list changes a sum over it by that member alone. -/
theorem sum_map_modify {α : Type} (g : α → Nat) (f : α → α) {xs : List α} {i : Nat}
    (h : i < xs.length) :
    ((xs.modify i f).map g).sum + g xs[i] = (xs.map g).sum + g (f xs[i]) := by
  -- the members before and behind the changed one contribute the same
  have hsplit : (xs.map g).sum =
      ((xs.take i).map g).sum + (g xs[i] + ((xs.drop (i + 1)).map g).sum) := by
    conv_lhs => rw [← List.take_append_drop i xs, List.drop_eq_getElem_cons h]
    rw [List.map_append, List.sum_append, List.map_cons, List.sum_cons]
  rw [hsplit, List.modify_eq_take_cons_drop h, List.map_append, List.sum_append, List.map_cons,
    List.sum_cons]
  omega

private theorem countP_eq_sum {α : Type} (p : α → Bool) (xs : List α) :
    xs.countP p = (xs.map fun x => if p x then 1 else 0).sum := by
  induction xs with
  | nil => rfl
  | cons x xs ih => rw [List.countP_cons, ih, List.map_cons, List.sum_cons, Nat.add_comm]

theorem WellFormed.roomFor {t : LinkTable} (h : t.WellFormed) (wanted : Nat) :
    (t.roomFor wanted).WellFormed where
  keys i hi := by
    rw [join_getElem?_roomFor]
    exact h.keys i hi
  rows key := by
    rw [row_roomFor]
    exact h.rows key
  size := by
    rw [roomFor_size, h.size]
    unfold LinkTable.roomFor
    split
    -- the slots that are added hold no rows
    case isTrue => simp [List.countP_replicate]
    case isFalse => rfl

/-- The row of a key is there exactly if its slot holds one, once there is room for the key. -/
theorem getElem_roomFor (t : LinkTable) (key : UInt32)
    (hroom : key.toNat < (t.roomFor (key.toNat + 1)).rows.toList.length) :
    (t.roomFor (key.toNat + 1)).rows.toList[key.toNat] = t.row? key := by
  have hstored : key.toNat < (t.roomFor (key.toNat + 1)).rows.size := hroom
  have hslot := row?_roomFor t (key.toNat + 1) key
  rw [row?, Array.getElem?_eq_getElem hstored] at hslot
  rw [Array.getElem_toList]
  exact hslot

theorem WellFormed.amended {t : LinkTable} (h : t.WellFormed) {key : UInt32}
    {change : WordSet → WordSet} (hchange : (change (t.row key)).Bounded) :
    (t.amended key change).WellFormed where
  keys i hi := by
    -- no key is so great that something is written past the last one
    have hne : key.toNat ≠ i := by
      have := key.toNat_lt_size
      omega
    have hroom := (h.roomFor (key.toNat + 1)).keys i hi
    simpa only [LinkTable.amended, Array.getElem?_modify, hne, if_false] using hroom
  rows k := by
    rw [row_amended]
    split
    case isTrue => exact hchange
    case isFalse => exact h.rows k
  size := by
    have hroom : key.toNat < (t.roomFor (key.toNat + 1)).rows.toList.length :=
      le_size_roomFor t (key.toNat + 1)
    have hcount := sum_map_modify (fun slot => if slot.isSome then 1 else 0)
      (fun row => some (change (row.getD .empty))) hroom
    have hbefore := (h.roomFor (key.toNat + 1)).size
    rw [roomFor_size] at hbefore
    rw [← countP_eq_sum, ← countP_eq_sum, getElem_roomFor t key hroom, ← hbefore] at hcount
    simp only [LinkTable.amended, Array.toList_modify]
    -- a row that was not there is one more
    cases hrow : t.row? key with
    | none =>
      simp only [hrow, Option.isSome_none, Option.isSome_some] at hcount ⊢
      simpa using hcount.symm
    | some row =>
      simp only [hrow, Option.isSome_some] at hcount ⊢
      simpa using hcount.symm

/-- Whether a table is well-formed does not depend on what its rows are charged with. -/
theorem WellFormed.written {t : LinkTable} (h : t.WellFormed) {key : UInt32}
    {change : WordSet → WordSet} (hchange : (change (t.row key)).Bounded) :
    (t.written key change).WellFormed where
  keys := (h.amended hchange).keys
  rows := (h.amended hchange).rows
  size := (h.amended hchange).size

/-! ## §6 Links -/

/-- A key is linked to the members of its row. -/
def Links (t : LinkTable) (key bit : UInt32) : Prop := bit ∈ t.row key

instance (t : LinkTable) (key bit : UInt32) : Decidable (t.Links key bit) :=
  inferInstanceAs (Decidable (bit ∈ t.row key))

theorem not_links_empty (limit : Nat) (key bit : UInt32) : ¬(empty limit).Links key bit := by
  have hrow : (empty limit).row key = .empty := by simp [row, row?, empty]
  simp [Links, hrow, WordSet.mem_iff]

theorem links_iff {t : LinkTable} {key bit : UInt32} :
    t.Links key bit ↔ ∃ row, t.row? key = some row ∧ bit ∈ row := by
  unfold Links row
  cases t.row? key with
  | none => simp [WordSet.mem_iff]
  | some row => simp

/-- A table has gained links: it has its old ones and the added ones, and is otherwise as good a
table as before. -/
structure Gains (t u : LinkTable) (added : UInt32 → UInt32 → Prop) : Prop where
  links : ∀ key bit, u.Links key bit ↔ t.Links key bit ∨ added key bit
  limit : u.limit = t.limit
  wellFormed : t.WellFormed → u.WellFormed

theorem Gains.refl (t : LinkTable) : t.Gains t fun _ _ => False where
  links _ _ := by simp
  limit := rfl
  wellFormed := id

theorem Gains.trans {t u v : LinkTable} {p q : UInt32 → UInt32 → Prop} (h : t.Gains u p)
    (h' : u.Gains v q) : t.Gains v fun key bit => p key bit ∨ q key bit where
  links key bit := by rw [h'.links, h.links, or_assoc]
  limit := h'.limit.trans h.limit
  wellFormed := h'.wellFormed ∘ h.wellFormed

theorem Gains.congr {t u : LinkTable} {p q : UInt32 → UInt32 → Prop} (h : t.Gains u p)
    (hpq : ∀ key bit, p key bit ↔ q key bit) : t.Gains u q where
  links key bit := by rw [h.links, hpq]
  limit := h.limit
  wellFormed := h.wellFormed

theorem insert_eq_ok {t u : LinkTable} {key bit : UInt32} {fresh : Bool}
    (h : insert key bit t = .ok fresh u) :
    u = t.written key (·.insert bit) ∧ u.bytes ≤ t.limit ∧ (fresh = true ↔ ¬t.Links key bit) := by
  obtain ⟨before, r, hget, hrest⟩ := Step.bind_eq_ok.1 h
  obtain ⟨rfl, rfl⟩ := Step.get_eq_ok.1 hget
  obtain ⟨⟨⟩, v, hwrite, hpure⟩ := Step.bind_eq_ok.1 hrest
  obtain ⟨hfresh, rfl⟩ := Step.pure_eq_ok.1 hpure
  obtain ⟨hu, hbytes⟩ := write_eq_ok hwrite
  refine ⟨hu, hbytes, ?_⟩
  -- the answer was read from the row before the write
  rw [← hfresh]
  simp [Links, WordSet.mem_iff]

theorem addRow_eq_ok {t u : LinkTable} {key : UInt32} {bits : WordSet} {a : Unit}
    (h : addRow key bits t = .ok a u) :
    u = t.written key (·.union bits) ∧ u.bytes ≤ t.limit := by
  obtain ⟨before, r, hget, hwrite⟩ := Step.bind_eq_ok.1 h
  obtain ⟨rfl, rfl⟩ := Step.get_eq_ok.1 hget
  exact write_eq_ok hwrite

/-- A table with a link written into it has gained that link. -/
theorem gains_written_insert (t : LinkTable) (key bit : UInt32) :
    t.Gains (t.written key (·.insert bit)) fun k b => k = key ∧ b = bit := by
  refine ⟨fun k b => ?_, limit_written .., fun hwf => hwf.written ((hwf.rows key).insert bit)⟩
  unfold Links
  rw [row_written]
  -- only the row of the key has changed, and it has its new member
  by_cases hk : k = key
  · subst hk
    simp [WordSet.mem_iff, WordSet.contains_insert, or_comm]
  · simp [hk]

theorem gains_insert {t u : LinkTable} {key bit : UInt32} {fresh : Bool}
    (h : insert key bit t = .ok fresh u) : t.Gains u fun k b => k = key ∧ b = bit := by
  obtain ⟨rfl, -, -⟩ := insert_eq_ok h
  exact gains_written_insert t key bit

/-- An insertion leaves what its write leaves. -/
theorem after_insert (t : LinkTable) (key bit : UInt32) :
    (insert key bit).after t =
      (write key ((t.row key).bytesAfterInsert bit) (·.insert bit)).after t := by
  -- what comes after the write is only the answer
  change ((write key ((t.row key).bytesAfterInsert bit) (·.insert bit)) >>= fun _ =>
    pure (!(t.row key).contains bit)).after t = _
  cases h : write key ((t.row key).bytesAfterInsert bit) (·.insert bit) t with
  | ok a u => rw [Step.after_bind_of_ok h, Step.after_of_ok h]; rfl
  | error fault u => rw [Step.after_bind_of_error h, Step.after_of_error h]

/-- An insertion that fails has written its link or nothing: a refusal may come too late. -/
theorem gains_after_insert (t : LinkTable) (key bit : UInt32) :
    (t.Gains ((insert key bit).after t) fun _ _ => False) ∨
      t.Gains ((insert key bit).after t) fun k b => k = key ∧ b = bit := by
  rw [after_insert]
  exact holds_after_write
    (fun u => (t.Gains u fun _ _ => False) ∨ t.Gains u fun k b => k = key ∧ b = bit)
    (.inl (.refl t)) (.inr (gains_written_insert t key bit))

theorem gains_addRow {t u : LinkTable} {key : UInt32} {bits : WordSet} {a : Unit}
    (hbits : bits.Bounded) (h : addRow key bits t = .ok a u) :
    t.Gains u fun k b => k = key ∧ b ∈ bits := by
  obtain ⟨rfl, -⟩ := addRow_eq_ok h
  refine ⟨fun k b => ?_, limit_written .., fun hwf => hwf.written ((hwf.rows key).union hbits)⟩
  unfold Links
  rw [row_written]
  by_cases hk : k = key
  · subst hk
    simp [WordSet.mem_iff, WordSet.contains_union]
  · simp [hk]

theorem reserve_eq_ok {t u : LinkTable} {wanted : Nat} {a : Unit}
    (h : reserve wanted t = .ok a u) : u = t.roomFor wanted := by
  rw [reserve_apply] at h
  split at h
  case isTrue => cases h
  case isFalse =>
    cases h
    rfl

/-- Reserving slots that may not be laid out leaves the table as it is. -/
theorem after_reserve (t : LinkTable) (wanted : Nat) :
    (reserve wanted).after t = if t.SlotsRefused wanted then t else t.roomFor wanted := by
  unfold Step.after
  rw [reserve_apply]
  by_cases hslots : t.SlotsRefused wanted
  · simp only [hslots, if_true]
  · simp only [hslots, if_false]

/-- What holds of a table and of the table with further slots holds after reserving them. -/
theorem holds_after_reserve {t : LinkTable} {wanted : Nat} (I : LinkTable → Prop) (same : I t)
    (roomier : I (t.roomFor wanted)) : I ((reserve wanted).after t) := by
  rw [after_reserve]
  split
  case isTrue => exact same
  case isFalse => exact roomier

/-- Laying out slots adds no link. -/
theorem gains_roomFor (t : LinkTable) (wanted : Nat) :
    t.Gains (t.roomFor wanted) fun _ _ => False where
  links key bit := by simp [Links]
  limit := limit_roomFor ..
  wellFormed hwf := hwf.roomFor wanted

theorem gains_reserve {t u : LinkTable} {wanted : Nat} {a : Unit}
    (h : reserve wanted t = .ok a u) : t.Gains u fun _ _ => False := by
  obtain rfl := reserve_eq_ok h
  exact gains_roomFor t wanted

end Lineage.LinkTable
