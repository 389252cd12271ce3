import Lineage.Proofs.LinkTable.Listing
import Lineage.Proofs.WordSet.Storage
import Mathlib.Data.List.Infix

/-!
# How far the limit of a table holds

The first two checks of a write come before the write, and a table that fails them is left as it
was.  They look at the row and at the key slots apart, so a write that grows both at once can pass
them and still fail the last check, which comes after the write.  The link is then in the table,
the row exists, and the table holds more bytes than its limit allows.

## Main statements

- `failsLate_write`, `failsLate_insert`, `failsLate_addRow`: when a write fails its last check;
- `unchanged_iff_of_insert_error`, `unchanged_iff_of_addRow_error`: when a refused call leaves the
  table as it was;
- `bytes_reached_le_iff`: a table stays within its limit exactly until a call fails its last check;
- `limit_of_reached`: all of this, about any table that calls can reach.
-/

namespace Lineage.LinkTable

/-! ## §1 Calls -/

/-- A call that may change a table. -/
inductive Call where
  | insert (key bit : UInt32)
  | addRow (key : UInt32) (bits : WordSet)
  | merge (other : LinkTable)
  | reserve (wanted : Nat)
  /-- Create the row of a key, if there is none. -/
  | create (key : UInt32)

def Call.step : Call → Step LinkTable Unit
  | .insert key bit => discard (LinkTable.insert key bit)
  | .addRow key bits => LinkTable.addRow key bits
  | .merge other => LinkTable.merge other
  | .reserve wanted => LinkTable.reserve wanted
  | .create key => amend key id

/-- The table that calls lead to from an empty one.  A call that fails leaves what it leaves. -/
def reached (limit : Nat) (calls : List Call) : LinkTable :=
  calls.foldl (fun t call => call.step.after t) (empty limit)

theorem reached_concat (limit : Nat) (calls : List Call) (call : Call) :
    reached limit (calls ++ [call]) = call.step.after (reached limit calls) := by
  simp [reached]

/-! ## §2 Failing the last check -/

/-- A step fails because the table, once written, holds too many bytes. -/
def FailsLate {α : Type} (x : Step LinkTable α) (t : LinkTable) : Prop :=
  ∃ held, x.result t = .error (.growth (.table held t.limit))

/-- A write fails late if it passes the two checks that come before it, and takes the table over
its limit. -/
theorem failsLate_write {t : LinkTable} {key : UInt32} {rowBytes : Nat}
    {change : WordSet → WordSet} :
    FailsLate (write key rowBytes change) t ↔ ¬t.RowRefused key rowBytes ∧
      ¬t.SlotsRefused (key.toNat + 1) ∧ t.limit < (t.written key change).bytes := by
  unfold FailsLate Step.result
  rw [write_apply]
  -- each check has a fault of its own, so the fault tells which of the three it was
  by_cases hrow : t.RowRefused key rowBytes
  · simp [hrow, Fault.growth, Fault.ofCause]
  · by_cases hslots : t.SlotsRefused (key.toNat + 1)
    · simp [hrow, hslots, Fault.growth, Fault.ofCause]
    · by_cases hover : t.limit < (t.written key change).bytes
      · simp [hrow, hslots, hover, Fault.growth, Fault.ofCause]
      · simp [hrow, hslots, hover]

theorem failsLate_insert {t : LinkTable} {key bit : UInt32} :
    FailsLate (LinkTable.insert key bit) t ↔
      ¬t.RowRefused key ((t.row key).bytesAfterInsert bit) ∧ ¬t.SlotsRefused (key.toNat + 1) ∧
      t.limit < (t.written key (·.insert bit)).bytes := by
  rw [← failsLate_write]
  -- what comes after the write is only the answer
  have hinsert : LinkTable.insert key bit t =
      (write key ((t.row key).bytesAfterInsert bit) (·.insert bit) >>= fun _ =>
        pure (!(t.row key).contains bit)) t := rfl
  unfold FailsLate Step.result
  rw [hinsert]
  cases hwrite : write key ((t.row key).bytesAfterInsert bit) (·.insert bit) t with
  | ok a u =>
    rw [Step.bind_of_ok hwrite]
    apply iff_of_false
    · rintro ⟨held, hfault⟩
      cases hfault
    · rintro ⟨held, hfault⟩
      cases hfault
  | error fault u =>
    rw [Step.bind_of_error hwrite]
    simp

theorem failsLate_addRow {t : LinkTable} {key : UInt32} {bits : WordSet} :
    FailsLate (LinkTable.addRow key bits) t ↔
      ¬t.RowRefused key ((t.row key).bytesAfterUnion bits) ∧ ¬t.SlotsRefused (key.toNat + 1) ∧
      t.limit < (t.written key (·.union bits)).bytes := by
  rw [← failsLate_write]
  exact Iff.rfl

theorem bytes_le_bytes_roomFor (t : LinkTable) (wanted : Nat) :
    t.bytes ≤ (t.roomFor wanted).bytes := by
  have hsize := size_le_size_roomFor t wanted
  simp only [bytes, charged_roomFor, slotBytes]
  omega

theorem bytes_written (t : LinkTable) (key : UInt32) (change : WordSet → WordSet) :
    (t.written key change).bytes = (t.roomFor (key.toNat + 1)).rows.size * slotBytes +
      (t.charged + (change (t.row key)).bytes - (t.row key).bytes) := by
  have hrows : (t.written key change).rows.size = (t.roomFor (key.toNat + 1)).rows.size :=
    size_rows_amended t key change
  rw [bytes, hrows]
  rfl

theorem bytes_le_bytes_written {t : LinkTable} {key : UInt32} {change : WordSet → WordSet}
    (hchange : (t.row key).bytes ≤ (change (t.row key)).bytes) :
    t.bytes ≤ (t.written key change).bytes := by
  have hsize := size_le_size_roomFor t (key.toNat + 1)
  rw [bytes_written, bytes]
  simp only [slotBytes]
  omega

/-! ## §3 Steps that keep the meter

What a step does to the bytes held: it never gives any back, and it stays within the limit unless
it fails late.  This is closed under sequencing, so it is enough to look at single writes. -/

structure Metered {α : Type} (x : Step LinkTable α) (t : LinkTable) : Prop where
  limit : (x.after t).limit = t.limit
  grows : t.bytes ≤ (x.after t).bytes
  within : t.bytes ≤ t.limit → ((x.after t).bytes ≤ t.limit ↔ ¬FailsLate x t)

variable {α β : Type} {t : LinkTable}

/-- A step that answers does not fail late. -/
theorem not_failsLate_of_ok {x : Step LinkTable α} {u : LinkTable} {a : α} (h : x t = .ok a u) :
    ¬FailsLate x t := by
  rintro ⟨held, hfault⟩
  rw [Step.result_of_ok h] at hfault
  cases hfault

theorem metered_of_same {x : Step LinkTable α} {a : α} (h : x t = .ok a t) : Metered x t := by
  have hafter : x.after t = t := Step.after_of_ok h
  -- nothing is held that was not held before
  refine ⟨by rw [hafter], by rw [hafter], fun hwithin => ?_⟩
  rw [hafter]
  exact iff_of_true hwithin (not_failsLate_of_ok h)

theorem metered_get : Metered (get : Step LinkTable LinkTable) t := metered_of_same rfl

theorem Metered.bind {x : Step LinkTable α} {f : α → Step LinkTable β} (hx : Metered x t)
    (hf : ∀ a u, x t = .ok a u → Metered (f a) u) : Metered (x >>= f) t := by
  cases hstep : x t with
  | error fault u =>
    -- the second step is not carried out
    have hboth : (x >>= f) t = .error fault u := Step.bind_of_error hstep
    have hafter : (x >>= f).after t = x.after t := by
      rw [Step.after_of_error hboth, Step.after_of_error hstep]
    have hlate : FailsLate (x >>= f) t ↔ FailsLate x t := by
      unfold FailsLate
      rw [Step.result_of_error hboth, Step.result_of_error hstep]
      simp only [Except.error.injEq]
    refine ⟨?_, ?_, ?_⟩
    · rw [hafter]
      exact hx.limit
    · rw [hafter]
      exact hx.grows
    · rw [hafter, hlate]
      exact hx.within
  | ok a u =>
    have hboth : (x >>= f) t = f a u := Step.bind_of_ok hstep
    have hsecond := hf a u hstep
    have hafter : (x >>= f).after t = (f a).after u := by
      unfold Step.after
      rw [hboth]
    -- the first step has answered, so it has not failed late, and left the table within its limit
    have hmid : x.after t = u := Step.after_of_ok hstep
    have hlimit : u.limit = t.limit := hmid ▸ hx.limit
    have hlate : FailsLate (x >>= f) t ↔ FailsLate (f a) u := by
      unfold FailsLate Step.result
      rw [hboth, hlimit]
    refine ⟨?_, ?_, fun hwithin => ?_⟩
    · rw [hafter, hsecond.limit, hlimit]
    · rw [hafter]
      exact Nat.le_trans (hmid ▸ hx.grows) hsecond.grows
    · have hmiddle : u.bytes ≤ t.limit :=
        hmid ▸ (hx.within hwithin).2 (not_failsLate_of_ok hstep)
      rw [hafter, hlate, ← hlimit]
      apply hsecond.within
      rw [hlimit]
      exact hmiddle

theorem metered_forM {γ : Type} {f : γ → Step LinkTable Unit} {xs : List γ}
    (hf : ∀ x ∈ xs, ∀ t, Metered (f x) t) : ∀ t, Metered (xs.forM f) t := by
  -- the table changes with every step, so the statement is about all tables
  induction xs with
  | nil =>
    intro t
    exact metered_of_same rfl
  | cons x xs ih =>
    intro t
    change Metered (f x >>= fun _ => xs.forM f) t
    apply (hf x List.mem_cons_self t).bind
    intro _ u _
    exact ih (fun y hy => hf y (List.mem_cons_of_mem _ hy)) u

/-- Laying out slots within the limit stays within it. -/
theorem bytes_roomFor_le {wanted : Nat} (hwithin : t.bytes ≤ t.limit)
    (h : ¬t.SlotsRefused wanted) : (t.roomFor wanted).bytes ≤ t.limit := by
  by_cases hroom : t.rows.size < wanted
  · by_contra hover
    exact h ⟨hroom, by omega⟩
  · rw [roomFor, if_neg hroom]
    exact hwithin

/-- A step that takes slots and nothing else. -/
private theorem metered_of_slots {x : Step LinkTable Unit} {u : LinkTable} {wanted held : Nat}
    (h : x t = if t.SlotsRefused wanted then .error (.growth (.slots wanted held t.limit)) t
      else .ok () u)
    (hlimit : u.limit = t.limit) (hbytes : u.bytes = (t.roomFor wanted).bytes) :
    Metered x t := by
  -- refused slots are not laid out, and those that are laid out were checked before
  by_cases hslots : t.SlotsRefused wanted
  · rw [if_pos hslots] at h
    have hafter := Step.after_of_error h
    refine ⟨by rw [hafter], by rw [hafter], fun hwithin => ?_⟩
    rw [hafter]
    apply iff_of_true hwithin
    rintro ⟨held', hfault⟩
    rw [Step.result_of_error h] at hfault
    simp [Fault.growth, Fault.ofCause] at hfault
  · rw [if_neg hslots] at h
    have hafter := Step.after_of_ok h
    refine ⟨by rw [hafter, hlimit], ?_, fun hwithin => ?_⟩
    · rw [hafter, hbytes]
      exact bytes_le_bytes_roomFor t wanted
    · rw [hafter, hbytes]
      exact iff_of_true (bytes_roomFor_le hwithin hslots) (not_failsLate_of_ok h)

theorem metered_reserve (wanted : Nat) : Metered (reserve wanted) t :=
  metered_of_slots (reserve_apply t wanted) (limit_roomFor t wanted) rfl

theorem metered_create (key : UInt32) : Metered (amend key id) t := by
  apply metered_of_slots (amend_apply t key id) (limit_amended t key id)
  rw [bytes, bytes, size_rows_amended]
  rfl

/-- A write that does not shrink rows. -/
theorem metered_write {key : UInt32} {rowBytes : Nat} {change : WordSet → WordSet}
    (hchange : (t.row key).bytes ≤ (change (t.row key)).bytes) :
    Metered (write key rowBytes change) t := by
  have hafter := after_write t key rowBytes change
  by_cases hearly : t.RowRefused key rowBytes ∨ t.SlotsRefused (key.toNat + 1)
  · rw [if_pos hearly] at hafter
    -- refused early: the table is as it was, and the fault is another one
    refine ⟨by rw [hafter], by rw [hafter], fun hwithin => ?_⟩
    rw [hafter, failsLate_write]
    apply iff_of_true hwithin
    rintro ⟨hrow, hslots, -⟩
    exact hearly.elim hrow hslots
  · rw [if_neg hearly] at hafter
    obtain ⟨hrow, hslots⟩ := not_or.1 hearly
    -- written: whether the last check passes is the question whether the limit is kept
    refine ⟨by rw [hafter, limit_written], ?_, fun _ => ?_⟩
    · rw [hafter]
      exact bytes_le_bytes_written hchange
    · rw [hafter, failsLate_write]
      simp [hrow, hslots]

theorem metered_insert (key bit : UInt32) : Metered (LinkTable.insert key bit) t := by
  apply metered_get.bind
  intro before u hget
  obtain ⟨rfl, rfl⟩ := Step.get_eq_ok.1 hget
  refine (metered_write ?_).bind fun _ v _ => metered_of_same rfl
  -- the row has the bytes it was checked for, and these are no fewer than before
  rw [WordSet.bytes_insert]
  apply WordSet.bytes_le_bytesToFit

theorem metered_addRow (key : UInt32) (bits : WordSet) :
    Metered (LinkTable.addRow key bits) t := by
  apply metered_get.bind
  intro before u hget
  obtain ⟨rfl, rfl⟩ := Step.get_eq_ok.1 hget
  apply metered_write
  rw [WordSet.bytes_union]
  apply WordSet.bytes_le_bytesToFit

theorem metered_merge (other : LinkTable) : Metered (LinkTable.merge other) t := by
  have hrows : ∀ t, Metered (other.toList.forM fun entry => addRow entry.1 entry.2) t :=
    metered_forM fun entry _ t => metered_addRow entry.1 entry.2
  unfold LinkTable.merge
  -- a table without rows asks for no slots
  cases other.maxKey? with
  | none => exact hrows t
  | some key => exact (metered_reserve _).bind fun _ u _ => hrows u

theorem metered_step (call : Call) : Metered call.step t := by
  cases call with
  | insert key bit =>
    change Metered (discard (LinkTable.insert key bit)) t
    rw [Step.discard_eq_bind]
    exact (metered_insert key bit).bind fun _ u _ => metered_of_same rfl
  | addRow key bits => exact metered_addRow key bits
  | merge other => exact metered_merge other
  | reserve wanted => exact metered_reserve wanted
  | create key => exact metered_create key

/-! ## §4 Tables that calls reach -/

theorem limit_reached (limit : Nat) (calls : List Call) : (reached limit calls).limit = limit := by
  induction calls using List.reverseRecOn with
  | nil => rfl
  | append_singleton calls call ih => rw [reached_concat, (metered_step call).limit, ih]

/-- What the arguments of a call bring into a table can be addressed by 32-bit numbers. -/
def Call.WellFormed : Call → Prop
  | .addRow _ bits => bits.Bounded
  | .merge other => other.WellFormed
  | _ => True

theorem WellFormed.after_write {key : UInt32} {rowBytes : Nat} {change : WordSet → WordSet}
    (h : t.WellFormed) (hchange : (change (t.row key)).Bounded) :
    ((write key rowBytes change).after t).WellFormed :=
  holds_after_write LinkTable.WellFormed h (h.written hchange)

theorem WellFormed.after_addRow (h : t.WellFormed) (key : UInt32) {bits : WordSet}
    (hbits : bits.Bounded) : ((LinkTable.addRow key bits).after t).WellFormed :=
  h.after_write ((h.rows key).union hbits)

theorem WellFormed.after_reserve (h : t.WellFormed) (wanted : Nat) :
    ((reserve wanted).after t).WellFormed :=
  holds_after_reserve LinkTable.WellFormed h (h.roomFor wanted)

theorem WellFormed.after_merge (h : t.WellFormed) {other : LinkTable} (hother : other.WellFormed) :
    ((LinkTable.merge other).after t).WellFormed := by
  rw [merge_eq_mergeRows]
  apply after_mergeRows_induction LinkTable.WellFormed h h.after_reserve
  rintro ⟨key, row⟩ hentry u hu
  exact hu.after_addRow key (hother.bounded_of_row? ((mem_toList hother).1 hentry))

theorem WellFormed.after_step (h : t.WellFormed) {call : Call} (hcall : call.WellFormed) :
    (call.step.after t).WellFormed := by
  -- whatever becomes of a call, it leaves a table that is well-formed if written in full
  cases call with
  | insert key bit =>
    rw [Call.step, Step.after_discard, after_insert]
    exact h.after_write ((h.rows key).insert bit)
  | addRow key bits => exact h.after_addRow key hcall
  | merge other => exact h.after_merge hcall
  | reserve wanted => exact h.after_reserve wanted
  | create key => exact holds_after_amend LinkTable.WellFormed h (h.amended (h.rows key))

/-- Calls build tables that hold what 32-bit numbers address, whether they fail or not. -/
theorem wellFormed_reached {limit : Nat} {calls : List Call}
    (h : ∀ call ∈ calls, call.WellFormed) : (reached limit calls).WellFormed := by
  -- call by call, failing ones included
  induction calls using List.reverseRecOn with
  | nil => exact wellFormed_empty limit
  | append_singleton calls call ih =>
    rw [reached_concat]
    apply WellFormed.after_step
    · exact ih fun call' hcall' => h call' (List.mem_append_left _ hcall')
    · exact h call (List.mem_append_right _ List.mem_cons_self)

/-- A table stays within its limit exactly as long as no call fails its last check. -/
theorem bytes_reached_le_iff (limit : Nat) (calls : List Call) :
    (reached limit calls).bytes ≤ limit ↔
      ∀ done call, done ++ [call] <+: calls → ¬FailsLate call.step (reached limit done) := by
  -- the last call decides if the table was within its limit before it
  induction calls using List.reverseRecOn with
  | nil =>
    apply iff_of_true
    · simp [reached, bytes, empty]
    · intro done call hpart
      simp at hpart
  | append_singleton calls call ih =>
    have hstep := metered_step (t := reached limit calls) call
    have hsteps := hstep.within
    rw [limit_reached] at hsteps
    rw [reached_concat]
    by_cases hwithin : (reached limit calls).bytes ≤ limit
    · rw [hsteps hwithin]
      constructor
      · intro hlast done call' hpart
        -- the call is the last one, or one of those before it
        rcases List.prefix_concat_iff.1 hpart with heq | hpart
        · obtain ⟨rfl, hcall⟩ := List.append_inj' heq rfl
          obtain rfl : call' = call := List.cons.inj hcall |>.1
          exact hlast
        · exact ih.1 hwithin done call' hpart
      · intro hall
        exact hall calls call (List.prefix_refl _)
    · -- once over its limit, a table stays there
      have hgrows := hstep.grows
      apply iff_of_false (by omega)
      intro hall
      apply hwithin
      apply ih.2
      intro done call' hpart
      exact hall done call' (hpart.trans (List.prefix_append _ _))

/-! ## §5 Refused calls -/

/-- Nothing about a table that can be asked for has changed: its rows, their number, and the bytes
held. -/
structure Unchanged (t u : LinkTable) : Prop where
  rows : ∀ key, u.row? key = t.row? key
  size : u.size = t.size
  bytes : u.bytes = t.bytes

/-- A write that changes nothing about a row that is there leaves the table as it was. -/
theorem written_eq_self {key : UInt32} {change : WordSet → WordSet}
    (h : t.row? key = some (change (t.row key))) : t.written key change = t := by
  -- a row that is there has its slot, so no further ones are laid out
  have hstored : key.toNat < t.rows.size := by
    by_contra hmissing
    rw [row?, Array.getElem?_eq_none (Nat.le_of_not_lt hmissing)] at h
    cases h
  have hroom : t.roomFor (key.toNat + 1) = t := if_neg (Nat.not_lt.2 hstored)
  have hrow : change (t.row key) = t.row key := by
    conv_rhs => rw [row, h]
    rfl
  -- the change puts back what is in the slot
  have hslot : t.rows[key.toNat] = some (t.row key) := by
    rw [hrow, row?, Array.getElem?_eq_getElem hstored] at h
    exact h
  have hrows : (t.rows.modify key.toNat fun row => some (change (row.getD .empty))) = t.rows := by
    apply Array.ext
    · simp
    · intro i hi hi'
      rw [Array.getElem_modify]
      split
      case isTrue hsame =>
        subst hsame
        rw [hslot, Option.getD_some, hrow]
      case isFalse => rfl
  have hcount : (if (t.row? key).isNone then t.size + 1 else t.size) = t.size := by
    rw [h]
    rfl
  simp only [written, amended, hroom, hrows, hcount, hrow, Nat.add_sub_cancel]

/-- A write that is refused leaves the table as it was if one of the first two checks refuses it,
or if there was nothing to write. -/
theorem unchanged_iff_of_write_error {key : UInt32} {rowBytes : Nat}
    {change : WordSet → WordSet} {u : LinkTable} {fault : Fault}
    (h : write key rowBytes change t = .error fault u) :
    Unchanged t u ↔ t.RowRefused key rowBytes ∨ t.SlotsRefused (key.toNat + 1) ∨
      t.row? key = some (change (t.row key)) := by
  have hafter := after_write t key rowBytes change
  rw [Step.after_of_error h] at hafter
  by_cases hearly : t.RowRefused key rowBytes ∨ t.SlotsRefused (key.toNat + 1)
  · rw [if_pos hearly] at hafter
    subst hafter
    -- nothing has been written
    apply iff_of_true ⟨fun _ => rfl, rfl, rfl⟩
    exact hearly.imp_right .inl
  · rw [if_neg hearly] at hafter
    subst hafter
    rw [← or_assoc, or_iff_right hearly]
    -- the last check refused it, so all of it was written
    constructor
    · intro hsame
      rw [← hsame.rows key, row?_written, if_pos rfl]
    · intro hnothing
      rw [written_eq_self hnothing]
      exact ⟨fun _ => rfl, rfl, rfl⟩

theorem unchanged_iff_of_insert_error {key bit : UInt32} {u : LinkTable} {fault : Fault}
    (h : LinkTable.insert key bit t = .error fault u) :
    Unchanged t u ↔ t.RowRefused key ((t.row key).bytesAfterInsert bit) ∨
      t.SlotsRefused (key.toNat + 1) ∨ t.Links key bit := by
  have hwrite : write key ((t.row key).bytesAfterInsert bit) (·.insert bit) t = .error fault u := by
    rcases Step.bind_eq_error.1 h with hget | ⟨before, r, hget, hrest⟩
    · cases hget
    · obtain ⟨rfl, rfl⟩ := Step.get_eq_ok.1 hget
      rcases Step.bind_eq_error.1 hrest with hwrite | ⟨_, _, _, hpure⟩
      · exact hwrite
      · cases hpure
  rw [unchanged_iff_of_write_error hwrite]
  refine or_congr_right (or_congr_right ?_)
  -- there is nothing to write if the link is there
  rw [links_iff]
  constructor
  · intro hnothing
    refine ⟨_, hnothing, ?_⟩
    simp [WordSet.mem_iff, WordSet.contains_insert]
  · rintro ⟨row, hrow, hbit⟩
    have hthere : t.row key = row := by rw [LinkTable.row, hrow, Option.getD_some]
    rw [hthere, WordSet.insert_eq_self hbit, hrow]

theorem unchanged_iff_of_addRow_error {key : UInt32} {bits : WordSet} {u : LinkTable}
    {fault : Fault} (h : LinkTable.addRow key bits t = .error fault u) :
    Unchanged t u ↔ t.RowRefused key ((t.row key).bytesAfterUnion bits) ∨
      t.SlotsRefused (key.toNat + 1) ∨ t.row? key = some ((t.row key).union bits) :=
  unchanged_iff_of_write_error h

/-- How far the limit holds, for any table that calls reach.  It stays within its limit exactly as
long as no call fails its last check, and a write fails that check exactly if it passes the two
before it and is too large all the same.  A refused call leaves no trace exactly if one of the first
two checks refuses it or there was nothing to write. -/
theorem limit_of_reached (limit : Nat) (calls : List Call) :
    ((reached limit calls).bytes ≤ limit ↔
      ∀ done call, done ++ [call] <+: calls → ¬FailsLate call.step (reached limit done)) ∧
    (∀ key bit, FailsLate (LinkTable.insert key bit) (reached limit calls) ↔
      ¬(reached limit calls).RowRefused key
        (((reached limit calls).row key).bytesAfterInsert bit) ∧
      ¬(reached limit calls).SlotsRefused (key.toNat + 1) ∧
      limit < ((reached limit calls).written key (·.insert bit)).bytes) ∧
    (∀ key bits, FailsLate (LinkTable.addRow key bits) (reached limit calls) ↔
      ¬(reached limit calls).RowRefused key
        (((reached limit calls).row key).bytesAfterUnion bits) ∧
      ¬(reached limit calls).SlotsRefused (key.toNat + 1) ∧
      limit < ((reached limit calls).written key (·.union bits)).bytes) ∧
    (∀ key bit fault u, LinkTable.insert key bit (reached limit calls) = .error fault u →
      (Unchanged (reached limit calls) u ↔
        (reached limit calls).RowRefused key
          (((reached limit calls).row key).bytesAfterInsert bit) ∨
        (reached limit calls).SlotsRefused (key.toNat + 1) ∨
        (reached limit calls).Links key bit)) ∧
    (∀ key bits fault u, LinkTable.addRow key bits (reached limit calls) = .error fault u →
      (Unchanged (reached limit calls) u ↔
        (reached limit calls).RowRefused key
          (((reached limit calls).row key).bytesAfterUnion bits) ∨
        (reached limit calls).SlotsRefused (key.toNat + 1) ∨
        (reached limit calls).row? key = some (((reached limit calls).row key).union bits))) := by
  refine ⟨bytes_reached_le_iff limit calls, fun key bit => ?_, fun key bits => ?_, ?_, ?_⟩
  · rw [failsLate_insert, limit_reached]
  · rw [failsLate_addRow, limit_reached]
  · intro key bit fault u h
    exact unchanged_iff_of_insert_error h
  · intro key bits fault u h
    exact unchanged_iff_of_addRow_error h

/-- With room for the key slots alone, the first link of a table is refused and is there. -/
theorem first_link_refused_and_there :
    (¬∀ limit calls, (reached limit calls).bytes ≤ limit) ∧
    ¬∀ limit calls key bit fault u,
      LinkTable.insert key bit (reached limit calls) = .error fault u →
      Unchanged (reached limit calls) u := by
  -- 384 bytes are the first slots, and the row of the link takes 64 more
  constructor
  · intro hbytes
    exact absurd (hbytes 384 [.insert 0 0]) (by decide)
  · intro hsame
    exact absurd (hsame 384 [] 0 0 _ _ rfl).size (by decide)

/-- The same table, seen through the general statement: neither early check refuses the link. -/
theorem limit_of_reached_first_link :
    ∃ fault u, LinkTable.insert 0 0 (reached 384 []) = .error fault u ∧
      ¬Unchanged (reached 384 []) u := by
  refine ⟨_, _, rfl, ?_⟩
  rw [(limit_of_reached 384 []).2.2.2.1 0 0 _ _ rfl]
  decide

end Lineage.LinkTable
