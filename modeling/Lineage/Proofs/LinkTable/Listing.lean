import Lineage.LinkTable.Converse
import Lineage.Proofs.LinkTable.Writing

/-!
# Listing link tables, and what whole tables are made into

The rows and the links of a well-formed table are listed exactly, so the two operations that walk
over a whole table can be told by their links:

- `gains_merge`: merging adds the links of the other table;
- `converse_eq_ok`: the converse has every link turned around.
-/

namespace Lineage.LinkTable

/-! ## §1 Listings -/

/-- A listed slot stands at its key. -/
private theorem getElem?_of_mem_zipIdx {t : LinkTable} {slot : Option WordSet} {i : Nat}
    (h : (slot, i) ∈ t.rows.toList.zipIdx) : t.rows[i]? = some slot := by
  simpa using List.mk_mem_zipIdx_iff_getElem?.1 h

/-- A slot that holds a row has a 32-bit key. -/
private theorem toNat_key {t : LinkTable} (h : t.WellFormed) {row : WordSet} {i : Nat}
    (hrow : t.rows[i]? = some (some row)) : (UInt32.ofNat i).toNat = i := by
  -- slots past the last 32-bit key are laid out at most, and hold nothing
  have hi : i < UInt32.size := by
    by_contra hge
    have hnone := h.keys i (by omega)
    simp [hrow] at hnone
  simp only [UInt32.toNat_ofNat', UInt32.size] at hi ⊢
  omega

theorem mem_toList {t : LinkTable} (h : t.WellFormed) {key : UInt32} {row : WordSet} :
    (key, row) ∈ t.toList ↔ t.row? key = some row := by
  unfold toList
  simp only [List.mem_filterMap, Prod.exists, Option.map_eq_some_iff, Prod.mk.injEq]
  constructor
  · rintro ⟨slot, i, hslot, bits, rfl, rfl, rfl⟩
    have hget := getElem?_of_mem_zipIdx hslot
    simp [row?, toNat_key h hget, hget]
  · intro hrow
    have hget : t.rows[key.toNat]? = some (some row) := Option.join_eq_some_iff.1 hrow
    refine ⟨some row, key.toNat, ?_, row, rfl, UInt32.ofNat_toNat, rfl⟩
    rw [List.mk_mem_zipIdx_iff_getElem?]
    simpa using hget

/-- The rows are listed in strictly ascending order of their keys. -/
theorem toList_pairwise_lt {t : LinkTable} (h : t.WellFormed) :
    t.toList.Pairwise fun a b => a.1 < b.1 := by
  unfold toList
  rw [List.pairwise_filterMap]
  -- slots are listed in order, and a listed row has its slot's place as its key
  apply (zipIdx_pairwise_lt t.rows.toList).imp_of_mem
  intro p q hp hq hpq
  obtain ⟨slot, i⟩ := p
  obtain ⟨slot', i'⟩ := q
  intro a ha b hb
  obtain ⟨row, rfl, rfl⟩ := Option.map_eq_some_iff.1 ha
  obtain ⟨row', rfl, rfl⟩ := Option.map_eq_some_iff.1 hb
  rw [UInt32.lt_iff_toNat_lt, toNat_key h (getElem?_of_mem_zipIdx hp),
    toNat_key h (getElem?_of_mem_zipIdx hq)]
  exact hpq

theorem WellFormed.bounded_of_row? {t : LinkTable} (h : t.WellFormed) {key : UInt32}
    {row : WordSet} (hrow : t.row? key = some row) : row.Bounded := by
  have := h.rows key
  rwa [LinkTable.row, hrow] at this

theorem mem_links {t : LinkTable} (h : t.WellFormed) {key bit : UInt32} :
    (key, bit) ∈ t.links ↔ t.Links key bit := by
  unfold links
  simp only [List.mem_flatMap, List.mem_map, Prod.exists, Prod.mk.injEq, mem_toList h, links_iff]
  constructor
  · rintro ⟨k, row, hrow, b, hb, rfl, rfl⟩
    exact ⟨row, hrow, (WordSet.mem_toList (h.bounded_of_row? hrow)).1 hb⟩
  · rintro ⟨row, hrow, hb⟩
    exact ⟨key, row, hrow, bit, (WordSet.mem_toList (h.bounded_of_row? hrow)).2 hb, rfl, rfl⟩

/-- A table without rows links nothing. -/
theorem not_links_of_isEmpty {t : LinkTable} (hwf : t.WellFormed) (h : t.isEmpty = true)
    (key bit : UInt32) : ¬t.Links key bit := by
  simp only [isEmpty, hwf.size, decide_eq_true_eq, List.countP_eq_zero] at h
  rw [links_iff]
  rintro ⟨row, hrow, -⟩
  have hget : t.rows[key.toNat]? = some (some row) := Option.join_eq_some_iff.1 hrow
  have hmem : some row ∈ t.rows.toList := by
    rw [Array.mem_toList_iff]
    exact Array.mem_of_getElem? hget
  exact h _ hmem rfl

/-- Without a greatest member of any row there is no link. -/
theorem not_links_of_maxMember?_eq_none {t : LinkTable} (hwf : t.WellFormed)
    (h : t.maxMember? = none) (key bit : UInt32) : ¬t.Links key bit := by
  rw [links_iff]
  rintro ⟨row, hrow, hbit⟩
  -- no row has a greatest member, so none has any member
  have hnil : t.toList.filterMap (fun entry => entry.2.max?) = [] := List.max?_eq_none_iff.1 h
  have hmax : row.max? = none := by
    rw [List.filterMap_eq_nil_iff] at hnil
    exact hnil (key, row) ((mem_toList hwf).2 hrow)
  exact WordSet.not_mem_of_max?_eq_none hmax bit hbit

/-! ## §2 Merging -/

/-- A further row lists its own members under its key. -/
theorem exists_row_append_singleton {rows : List (UInt32 × WordSet)} {key bit k : UInt32}
    {row : WordSet} : (∃ row', (k, row') ∈ rows ++ [(key, row)] ∧ bit ∈ row') ↔
      (∃ row', (k, row') ∈ rows ∧ bit ∈ row') ∨ (k = key ∧ bit ∈ row) := by
  simp only [List.mem_append, List.mem_singleton, Prod.mk.injEq]
  constructor
  · intro hcases
    rcases hcases with ⟨row', hrow | ⟨hkey, hrow⟩, hbit⟩
    · exact .inl ⟨row', hrow, hbit⟩
    · exact .inr ⟨hkey, hrow ▸ hbit⟩
  · intro hcases
    rcases hcases with ⟨row', hrow, hbit⟩ | ⟨hkey, hbit⟩
    · exact ⟨row', .inl hrow, hbit⟩
    · exact ⟨row, .inr ⟨hkey, rfl⟩, hbit⟩

/-- A merge that answers has laid out slots, at most, and then added the rows. -/
theorem merge_eq_ok {t u other : LinkTable} {a : Unit} (h : merge other t = .ok a u) :
    ∃ wanted, (other.toList.forM fun entry => addRow entry.1 entry.2) (t.roomFor wanted) =
      .ok a u := by
  unfold merge at h
  cases hkey : other.maxKey? with
  | none =>
    simp only [hkey] at h
    -- without a row no slots are laid out
    exact ⟨0, h⟩
  | some key =>
    simp only [hkey] at h
    obtain ⟨⟨⟩, r, hreserve, hrest⟩ := Step.bind_eq_ok.1 h
    obtain rfl := reserve_eq_ok hreserve
    exact ⟨key.toNat + 1, hrest⟩

/-- A merge as far as some of the rows: slots for all keys of the other table, and the rows in
turn. -/
def mergeRows (other : LinkTable) (rows : List (UInt32 × WordSet)) : Step LinkTable Unit := do
  if let some key := other.maxKey? then
    reserve (key.toNat + 1)
  rows.forM fun (key, row) => addRow key row

theorem merge_eq_mergeRows (other : LinkTable) : merge other = mergeRows other other.toList := rfl

/-- What reserving slots and adding rows keep, a merge keeps that has come as far as these rows,
wherever it may break off. -/
theorem after_mergeRows_induction {t other : LinkTable} {rows : List (UInt32 × WordSet)}
    (I : LinkTable → Prop) (start : I t) (reserved : ∀ wanted, I ((reserve wanted).after t))
    (added : ∀ entry ∈ rows, ∀ u, I u → I ((addRow entry.1 entry.2).after u)) :
    I ((mergeRows other rows).after t) := by
  -- slots may or may not be reserved first; after that only rows are added
  have hrows (u : LinkTable) (hu : I u) :
      I ((rows.forM fun entry => addRow entry.1 entry.2).after u) :=
    Step.after_forM_induction I hu added
  unfold mergeRows
  cases other.maxKey? with
  | none => exact hrows t start
  | some key => exact Step.after_bind I (reserved _) fun _ u _ hu => hrows u hu

/-- Merging adds the links of the other table and no others. -/
theorem gains_merge {t u other : LinkTable} (hother : other.WellFormed) {a : Unit}
    (h : merge other t = .ok a u) : t.Gains u other.Links := by
  obtain ⟨wanted, hrun⟩ := merge_eq_ok h
  have hreserved := gains_roomFor t wanted
  -- the rows added so far make up the links gained so far
  have hrows := Step.forM_induction
    (fun done v => t.Gains v fun key bit => ∃ row, (key, row) ∈ done ∧ bit ∈ row)
    (hreserved.congr (by simp)) ?carry hrun
  case carry =>
    rintro done ⟨key, row⟩ rest s s' hsplit hdone hadd
    have hmem : (key, row) ∈ other.toList := by simp [hsplit]
    have hbits := hother.bounded_of_row? ((mem_toList hother).1 hmem)
    refine (hdone.trans (gains_addRow hbits hadd)).congr fun k b => ?_
    rw [exists_row_append_singleton]
  refine hrows.congr fun key bit => ?_
  simp only [mem_toList hother, links_iff]

/-! ## §3 The converse -/

theorem gains_insertSwapped {t u : LinkTable} {links : List (UInt32 × UInt32)} {a : Unit}
    (h : insertSwapped links t = .ok a u) : t.Gains u fun key bit => (bit, key) ∈ links := by
  refine Step.forM_induction (fun done v => t.Gains v fun key bit => (bit, key) ∈ done)
    ((Gains.refl t).congr (by simp)) ?_ h
  rintro done ⟨k, b⟩ rest s s' - hdone hstep
  obtain ⟨fresh, hinsert⟩ := Step.discard_eq_ok.1 hstep
  refine (hdone.trans (gains_insert hinsert)).congr fun key bit => ?_
  simp only [List.mem_append, List.mem_singleton, Prod.mk.injEq]
  tauto

/-- The converse of a table has its links turned around, and its limit. -/
theorem converse_eq_ok {t u : LinkTable} (hwf : t.WellFormed) (h : t.converse = .ok u) :
    u.WellFormed ∧ u.limit = t.limit ∧ ∀ key bit, u.Links key bit ↔ t.Links bit key := by
  unfold converse at h
  split at h
  case h_1 hmax =>
    cases h
    -- there is no link to turn around
    refine ⟨wellFormed_empty _, rfl, fun key bit => ?_⟩
    exact iff_of_false (not_links_empty _ _ _) (not_links_of_maxMember?_eq_none hwf hmax _ _)
  case h_2 top hmax =>
    -- slots for all members, and then the links one by one the other way round
    obtain ⟨⟨⟩, r, hreserve, hrest⟩ := Step.bind_eq_ok.1 (Step.result_eq_ok.1 h)
    obtain ⟨⟨⟩, v, hfill, hget⟩ := Step.bind_eq_ok.1 hrest
    obtain ⟨rfl, -⟩ := Step.get_eq_ok.1 hget
    have hgains := (gains_reserve hreserve).trans (gains_insertSwapped hfill)
    refine ⟨hgains.wellFormed (wellFormed_empty _), hgains.limit, fun key bit => ?_⟩
    rw [hgains.links, mem_links hwf]
    simp [not_links_empty]

end Lineage.LinkTable
