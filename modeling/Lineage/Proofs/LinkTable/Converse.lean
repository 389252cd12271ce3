import Lineage.Proofs.LinkTable.Refusals
import Lineage.Proofs.LinkTable.Rows

/-!
# Turning tables around

The converse of a table has each of its links turned around, and it has no row without a link.  So
a table that is turned around twice is the table again, without the rows that had no members.

## Main statements

- `inhabited_of_converse`: every row of a converse has a member;
- `linkCount_converse`: no link is lost and none is counted twice;
- `rowSets_converse_converse`: turning around twice;
- `History.converse_transposes`: all of this, and how it may fail, for any table that calls reach.
-/

namespace Lineage

/-- The rows that have members. -/
def Rows.inhabited (m : Rows) : Rows := fun key => (m key).filter (·.Nonempty)

namespace LinkTable

variable {t u v : LinkTable}

/-! ## §1 Rows without members -/

/-- Every row has a member. -/
def Inhabited (t : LinkTable) : Prop := ∀ key row, t.row? key = some row → ∃ bit, bit ∈ row

theorem inhabited_of_same (h : t.Inhabited) (hrows : ∀ key, u.row? key = t.row? key) :
    u.Inhabited := by
  intro key row hrow
  exact h key row (hrows key ▸ hrow)

theorem inhabited_empty (limit : Nat) : (empty limit).Inhabited := by
  intro key row hrow
  simp [row?, empty] at hrow

/-- The row that a link is written into has it as a member. -/
theorem Inhabited.written_insert (h : t.Inhabited) (key bit : UInt32) :
    (t.written key (·.insert bit)).Inhabited := by
  intro k row hrow
  rw [row?_written] at hrow
  split at hrow
  case isTrue =>
    cases hrow
    refine ⟨bit, ?_⟩
    simp [WordSet.mem_iff, WordSet.contains_insert]
  case isFalse => exact h k row hrow

/-- Where a row with a member is added, there is one. -/
theorem Inhabited.written_union (h : t.Inhabited) (key : UInt32) {bits : WordSet}
    (hbits : ∃ bit, bit ∈ bits) : (t.written key (·.union bits)).Inhabited := by
  intro k row hrow
  rw [row?_written] at hrow
  split at hrow
  case isTrue =>
    cases hrow
    -- the row keeps what it had and gets the member of the row that is added
    obtain ⟨bit, hbit⟩ := hbits
    rw [WordSet.mem_iff] at hbit
    exact ⟨bit, by simp [WordSet.mem_iff, WordSet.contains_union, hbit]⟩
  case isFalse => exact h k row hrow

theorem Inhabited.after_insert (h : t.Inhabited) (key bit : UInt32) :
    ((insert key bit).after t).Inhabited := by
  rw [LinkTable.after_insert]
  exact holds_after_write Inhabited h (h.written_insert key bit)

theorem Inhabited.after_addRow (h : t.Inhabited) (key : UInt32) {bits : WordSet}
    (hbits : ∃ bit, bit ∈ bits) : ((addRow key bits).after t).Inhabited :=
  holds_after_write Inhabited h (h.written_union key hbits)

/-- A table in which every row has a member is empty only if it links nothing. -/
theorem Inhabited.exists_links (h : t.Inhabited) (ht : t.WellFormed) (hfull : t.isEmpty = false) :
    ∃ key bit, t.Links key bit := by
  -- a table that is not empty has a row, and the row has a member
  have hsome : ¬∀ key, t.rowSets key = none := by
    rw [← ht.shows.isEmpty, hfull]
    exact Bool.false_ne_true
  obtain ⟨key, hkey⟩ := not_forall.1 hsome
  obtain ⟨row, hrow⟩ := Option.ne_none_iff_exists'.1 (rowSets_eq_none_iff.not.1 hkey)
  obtain ⟨bit, hbit⟩ := h key row hrow
  exact ⟨key, bit, links_iff.2 ⟨row, hrow, hbit⟩⟩

theorem Inhabited.insertSwapped (h : t.Inhabited) {links : List (UInt32 × UInt32)} {a : Unit}
    (hrun : insertSwapped links t = .ok a u) : u.Inhabited := by
  -- rows are only made by writing a member into them
  refine Step.forM_induction (fun _ v => v.Inhabited) h ?_ hrun
  rintro done ⟨key, bit⟩ rest v w - hv hstep
  obtain ⟨fresh, hinsert⟩ := Step.discard_eq_ok.1 hstep
  obtain ⟨rfl, -, -⟩ := insert_eq_ok hinsert
  exact hv.written_insert bit key

/-- Key slots are laid out for all members of all rows, but a row is there only for those that the
table has. -/
theorem inhabited_of_converse (h : t.converse = .ok u) : u.Inhabited := by
  unfold converse at h
  split at h
  case h_1 =>
    cases h
    exact inhabited_empty _
  case h_2 =>
    obtain ⟨⟨⟩, r, hreserve, hrest⟩ := Step.bind_eq_ok.1 (Step.result_eq_ok.1 h)
    obtain ⟨⟨⟩, w, hfill, hget⟩ := Step.bind_eq_ok.1 hrest
    obtain ⟨rfl, -⟩ := Step.get_eq_ok.1 hget
    obtain rfl := reserve_eq_ok hreserve
    exact (inhabited_of_same (inhabited_empty _) (row?_roomFor _ _)).insertSwapped hfill

/-- An empty table turned around is an empty table. -/
theorem converse_of_isEmpty (ht : t.WellFormed) (h : t.isEmpty = true) :
    t.converse = .ok (empty t.limit) := by
  have hnone : t.maxMember? = none := by
    rw [ht.shows.maxMember?_none]
    intro key
    rw [Rows.members, ht.shows.isEmpty.1 h key]
    rfl
  unfold converse
  rw [hnone]

/-! ## §2 Tables with the same links -/

/-- A table without rows that have no members is known by its links. -/
theorem rowSets_eq_inhabited (ht : t.WellFormed) (hv : v.WellFormed) (hrows : v.Inhabited)
    (hlinks : ∀ key bit, v.Links key bit ↔ t.Links key bit) :
    v.rowSets = t.rowSets.inhabited := by
  funext key
  -- links are members of rows, so the tables agree on the members under each key
  have hmembers : v.rowSets.members key = t.rowSets.members key := by
    ext bit
    rw [hv.mem_rowSets, ht.mem_rowSets, hlinks]
  unfold Rows.inhabited
  cases hset : v.rowSets key with
  | none =>
    -- then the key has no members in the other table either
    have hnone : t.rowSets.members key = ∅ := by rw [← hmembers, Rows.members, hset]; rfl
    symm
    rw [Option.filter_eq_none_iff]
    intro set hset'
    rw [Rows.members, hset', Option.getD_some] at hnone
    simp [hnone]
  | some set =>
    have hset' : t.rowSets.members key = set := by rw [← hmembers, Rows.members, hset]; rfl
    obtain ⟨row, hrow, rfl⟩ := Option.map_eq_some_iff.1 hset
    obtain ⟨bit, hbit⟩ := hrows key row hrow
    have hmem : bit ∈ row.members := (hv.bounded_of_row? hrow).mem_members.2 hbit
    symm
    rw [Option.filter_eq_some_iff]
    refine ⟨?_, by simpa using ⟨bit, hmem⟩⟩
    -- a key with a member has a row
    cases hkey : t.rowSets key with
    | none => simp [← hset', Rows.members, hkey] at hmem
    | some set => rw [← hset', Rows.members, hkey, Option.getD_some]

/-- The links of the converse are as many. -/
theorem linkCount_converse (ht : t.WellFormed) (h : t.converse = .ok u) :
    u.linkCount = t.linkCount := by
  obtain ⟨hu, -, hlinks⟩ := converse_eq_ok ht h
  -- links are counted as pairs, and turning pairs around loses none of them
  have hswap : {link : UInt32 × UInt32 | link.2 ∈ u.rowSets.members link.1} =
      Prod.swap '' {link : UInt32 × UInt32 | link.2 ∈ t.rowSets.members link.1} := by
    rw [Set.image_swap_eq_preimage_swap]
    ext ⟨key, bit⟩
    simp only [Set.mem_preimage, Set.mem_ofPred_eq, Prod.swap_prod_mk, hu.mem_rowSets,
      ht.mem_rowSets, hlinks]
  rw [hu.shows.linkCount, ht.shows.linkCount, hswap,
    Set.ncard_image_of_injective _ Prod.swap_injective]

/-- Turning around twice gives the rows that have members, with these members. -/
theorem rowSets_converse_converse (ht : t.WellFormed) (h : t.converse = .ok u)
    (h' : u.converse = .ok v) : v.rowSets = t.rowSets.inhabited := by
  obtain ⟨hu, -, hlinks⟩ := converse_eq_ok ht h
  obtain ⟨hv, -, hlinks'⟩ := converse_eq_ok hu h'
  apply rowSets_eq_inhabited ht hv (inhabited_of_converse h')
  -- turned around twice, a link is itself
  intro key bit
  rw [hlinks', hlinks]

/-! ## §3 Every table -/

/-- However a table has come about: its converse, if it can be made, has exactly its links, turned
around, no row without members, and as many links; the converse of that has the rows again that
have members.  It cannot be made only if it would outgrow the limit. -/
theorem History.converse_transposes (h : History) :
    (∀ u, h.table.converse = .ok u →
      (∀ key bit, u.Links key bit ↔ h.table.Links bit key) ∧
      (∀ key, u.rowSets key ≠ some ∅) ∧
      u.linkCount = h.table.linkCount ∧
      ∀ v, u.converse = .ok v → v.rowSets = h.table.rowSets.inhabited) ∧
    ∀ fault, h.table.converse = .error fault → Outgrown fault := by
  have ht := h.wellFormed_table
  refine ⟨fun u hu => ?_, fun fault => outgrown_of_converse⟩
  obtain ⟨-, -, hlinks⟩ := converse_eq_ok ht hu
  refine ⟨hlinks, fun key hnone => ?_, linkCount_converse ht hu, fun v =>
    rowSets_converse_converse ht hu⟩
  -- a row that is shown as empty would have a member all the same
  obtain ⟨row, hrow, hempty⟩ := Option.map_eq_some_iff.1 hnone
  obtain ⟨bit, hbit⟩ := inhabited_of_converse hu key row hrow
  have hbounded := (converse_eq_ok ht hu).1.bounded_of_row? hrow
  simp [← hbounded.mem_members, hempty] at hbit

/-- Far keys, a row without members, members in several words, and a limit that the converse
keeps. -/
private def lattice : History :=
  .amend (.addRow (.insert (.insert (.new 8192) 40 2) 0 70) 7 (.withCapacity 600)) 20
    [.insert 2, .insert 3]

/-- A table whose converse would have more key slots than its limit allows. -/
private def steep : History := .insert (.new 1024) 0 100

private theorem lattice_turned :
    ∃ u v, lattice.table.converse = .ok u ∧ u.converse = .ok v := by
  have htwice : (lattice.table.converse >>= converse).isOk = true := by decide +kernel
  obtain ⟨v, hboth⟩ := Step.isOk_eq_true_iff.1 htwice
  obtain ⟨u, hu, hv⟩ := Step.except_bind_eq_ok.1 hboth
  exact ⟨u, v, hu, hv⟩

private theorem steep_not_turned : ∃ fault, steep.table.converse = .error fault := by
  have hfails : steep.table.converse.isOk = false := by decide +kernel
  exact Step.isOk_eq_false_iff.1 hfails

theorem History.converse_transposes_lattice :
    (∃ u v, lattice.table.converse = .ok u ∧ u.converse = .ok v ∧ u.Links 2 40 ∧
      u.linkCount = 4 ∧ v.rowSets = lattice.table.rowSets.inhabited ∧ v.rowSets 7 = none ∧
      v.rowSets 20 = some {2, 3}) ∧
    lattice.table.rowSets 7 = some ∅ ∧
    ∃ fault, steep.table.converse = .error fault ∧ Outgrown fault := by
  obtain ⟨u, v, hu, hv⟩ := lattice_turned
  obtain ⟨hlinks, -, hcount, hagain⟩ := (converse_transposes lattice).1 u hu
  have hrows := hagain v hv
  obtain ⟨fault, hfault⟩ := steep_not_turned
  refine ⟨⟨u, v, hu, hv, ?_, ?_, hrows, ?_, ?_⟩, by decide +kernel, fault, hfault,
    (converse_transposes steep).2 fault hfault⟩
  · exact (hlinks 2 40).2 (by decide +kernel)
  · rw [hcount]
    decide +kernel
  · rw [hrows]
    decide +kernel
  · rw [hrows]
    decide +kernel

end LinkTable

end Lineage
