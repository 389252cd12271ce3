import Lineage.LinkTable.Converse
import Lineage.Proofs.Conduct
import Lineage.Proofs.LinkTable.Writing

/-!
# How calls on link tables fail

A link table has one reason to refuse a call: it would hold more bytes than its limit allows.  So
every fault of a writing call tells a growth problem, and so does every fault of a call that is put
together from such calls.

- `heeds_reserve`, `heeds_insert`, `heeds_addRow`: single calls;
- `outgrown_of_converse`: turning a table around.
-/

namespace Lineage

open Step

/-- The fault tells that something would outgrow its limit. -/
def Outgrown (fault : Fault) : Prop := ∃ problem, fault = .growth problem

namespace LinkTable

theorem heeds_reserve (wanted : Nat) : Heeds (fun _ => True) Outgrown (reserve wanted) := by
  intro t _
  have hreserve := reserve_apply t wanted
  split at hreserve
  case isTrue => exact heedsAt_of_error hreserve trivial ⟨_, rfl⟩
  case isFalse => exact heedsAt_of_ok hreserve trivial

/-- Each of the three checks of a write refuses for the same reason. -/
theorem heeds_write (key : UInt32) (rowBytes : Nat) (change : WordSet → WordSet) :
    Heeds (fun _ => True) Outgrown (write key rowBytes change) := by
  intro t _
  have hwrite := write_apply t key rowBytes change
  split at hwrite
  case isTrue => exact heedsAt_of_error hwrite trivial ⟨_, rfl⟩
  case isFalse =>
    split at hwrite
    case isTrue => exact heedsAt_of_error hwrite trivial ⟨_, rfl⟩
    case isFalse =>
      split at hwrite
      case isTrue => exact heedsAt_of_error hwrite trivial ⟨_, rfl⟩
      case isFalse => exact heedsAt_of_ok hwrite trivial

theorem heeds_insert (key bit : UInt32) : Heeds (fun _ => True) Outgrown (insert key bit) :=
  heeds_get_bind fun t ht =>
    ((heeds_write key _ _).bind fun _ => heeds_pure _) t ht

theorem heeds_addRow (key : UInt32) (bits : WordSet) :
    Heeds (fun _ => True) Outgrown (addRow key bits) :=
  heeds_get_bind fun t ht => heeds_write key _ _ t ht

/-- A table that cannot be turned around would outgrow its limit. -/
theorem outgrown_of_converse {t : LinkTable} {fault : Fault} (h : t.converse = .error fault) :
    Outgrown fault := by
  unfold converse at h
  split at h
  case h_1 => cases h
  case h_2 bit _ =>
    -- it is made of reserving and inserting, which fail for no other reason
    have hfill : Heeds (fun _ => True) Outgrown (do
        reserve (bit.toNat + 1)
        insertSwapped t.links
        get : Step LinkTable LinkTable) :=
      (heeds_reserve _).bind fun _ =>
        (heeds_forM fun link _ => (heeds_insert _ _).discard).bind fun _ => heeds_get
    exact (hfill _ trivial).faults fault h

end LinkTable

end Lineage
