import Lineage.Proofs.LinkTable.History
import Lineage.Proofs.Sightings

/-!
# Nothing is lost and nothing is made up

A call on a link table may fail before it writes, after it has written, or, if it merges, after some
of the rows.  Wherever it stops, the table has all its old links, and no new one that the call was
not asked to add.  Sightings have a table for each segment, and what holds of the tables holds of
them.

## Main statements

- `LinkTable.AddsOnly`, `Sightings.AddsOnly`: the relation, with one lemma for each call;
- `LinkTable.History.links_asked`: over a whole history, failing calls included, a table has only
  links that some call was asked to add;
- `nothing_lost_nothing_invented`: every call, on every table and on all sightings.
-/

namespace Lineage

namespace LinkTable

/-! ## §1 Links -/

/-- A table has all links of another one, and besides them only links that were asked for. -/
structure AddsOnly (t u : LinkTable) (asked : UInt32 → UInt32 → Prop) : Prop where
  kept : ∀ key bit, t.Links key bit → u.Links key bit
  asked : ∀ key bit, u.Links key bit → t.Links key bit ∨ asked key bit

section Relation

variable {t u v : LinkTable} {asked : UInt32 → UInt32 → Prop}

theorem AddsOnly.refl (t : LinkTable) (asked : UInt32 → UInt32 → Prop) : t.AddsOnly t asked where
  kept _ _ := id
  asked _ _ := .inl

theorem AddsOnly.trans (h : t.AddsOnly u asked) (h' : u.AddsOnly v asked) :
    t.AddsOnly v asked where
  kept key bit hlink := h'.kept key bit (h.kept key bit hlink)
  asked key bit hlink := (h'.asked key bit hlink).elim (h.asked key bit) .inr

/-- One may say of more links that they were asked for. -/
theorem AddsOnly.mono {more : UInt32 → UInt32 → Prop} (h : t.AddsOnly u asked)
    (hmore : ∀ key bit, asked key bit → more key bit) : t.AddsOnly u more where
  kept := h.kept
  asked key bit hlink := (h.asked key bit hlink).imp_right (hmore key bit)

theorem Gains.addsOnly (h : t.Gains u asked) : t.AddsOnly u asked where
  kept key bit hlink := (h.links key bit).2 (.inl hlink)
  asked key bit := (h.links key bit).1

end Relation

/-- Changing a row adds what the row has more than before.  What the row is charged with makes no
difference to the links. -/
theorem addsOnly_amended (t : LinkTable) {key : UInt32} {change : WordSet → WordSet}
    {new : UInt32 → Prop} (h : ∀ b, b ∈ change (t.row key) ↔ b ∈ t.row key ∨ new b) :
    t.AddsOnly (t.amended key change) fun k b => k = key ∧ new b := by
  have hlinks (k b : UInt32) :
      (t.amended key change).Links k b ↔ t.Links k b ∨ k = key ∧ new b := by
    unfold Links
    rw [row_amended]
    -- the row that is changed, and the others, which are read as before
    by_cases hk : k = key
    · subst hk
      simp [h]
    · simp [hk]
  exact ⟨fun k b hlink => (hlinks k b).2 (.inl hlink), fun k b => (hlinks k b).1⟩

theorem addsOnly_insert (t : LinkTable) (key bit : UInt32) :
    t.AddsOnly ((insert key bit).after t) fun k b => k = key ∧ b = bit := by
  rcases gains_after_insert t key bit with hnothing | hlink
  · exact hnothing.addsOnly.mono fun _ _ => False.elim
  · exact hlink.addsOnly

theorem addsOnly_addRow (t : LinkTable) (key : UInt32) (bits : WordSet) :
    t.AddsOnly ((addRow key bits).after t) fun k b => k = key ∧ b ∈ bits := by
  have hrow (b : UInt32) : b ∈ (t.row key).union bits ↔ b ∈ t.row key ∨ b ∈ bits := by
    simp [WordSet.mem_iff, WordSet.contains_union]
  have hadds : t.AddsOnly (t.amended key (·.union bits)) fun k b => k = key ∧ b ∈ bits :=
    addsOnly_amended t hrow
  -- a table that was written into has the links of one that was amended
  have hwritten : t.AddsOnly (t.written key (·.union bits)) fun k b => k = key ∧ b ∈ bits :=
    ⟨hadds.kept, hadds.asked⟩
  exact holds_after_write (fun u => t.AddsOnly u fun k b => k = key ∧ b ∈ bits) (.refl t _) hwritten

theorem addsOnly_reserve (t : LinkTable) (wanted : Nat) :
    t.AddsOnly ((reserve wanted).after t) fun _ _ => False :=
  holds_after_reserve (fun u => t.AddsOnly u fun _ _ => False) (.refl t _)
    (gains_roomFor t wanted).addsOnly

theorem addsOnly_amend (t : LinkTable) (key : UInt32) (writes : List WordSet.Edit) :
    t.AddsOnly ((amend key (WordSet.applyAll writes)).after t) fun k b =>
      k = key ∧ b ∈ WordSet.brought writes :=
  holds_after_amend (fun u => t.AddsOnly u fun k b => k = key ∧ b ∈ WordSet.brought writes)
    (.refl t _) (addsOnly_amended t (WordSet.mem_applyAll writes (t.row key)))

/-- A merge that stops at some row has added rows of the other table, and at most a part of one. -/
theorem addsOnly_merge (t : LinkTable) {other : LinkTable} (hother : other.WellFormed) :
    t.AddsOnly ((merge other).after t) other.Links := by
  rw [merge_eq_mergeRows]
  -- every state on the way has only gained from the other table, so it may stop at any
  apply after_mergeRows_induction (fun u => t.AddsOnly u other.Links) (.refl t _)
  · intro wanted
    exact (addsOnly_reserve t wanted).mono fun _ _ => False.elim
  · rintro ⟨key, row⟩ hentry u hu
    -- what a row brings are links of the other table under its key
    have hrow : other.row? key = some row := (mem_toList hother).1 hentry
    refine hu.trans ((addsOnly_addRow u key row).mono ?_)
    rintro k b ⟨rfl, hb⟩
    exact links_iff.2 ⟨row, hrow, hb⟩

/-! ## §2 Whole histories -/

/-- The links that the calls of a history were asked to add. -/
def History.asked : History → UInt32 → UInt32 → Prop
  | .new _, _, _ => False
  | .clone h, k, b | .reserve h _, k, b => h.asked k b
  | .insert h key bit, k, b => h.asked k b ∨ k = key ∧ b = bit
  | .addRow h key bits, k, b => h.asked k b ∨ k = key ∧ b ∈ bits.set
  | .merge h other, k, b => h.asked k b ∨ other.asked k b
  | .amend h key writes, k, b => h.asked k b ∨ k = key ∧ b ∈ WordSet.brought writes

/-- A table has only links that were asked for, whichever calls have failed. -/
theorem History.links_asked (h : History) {k b : UInt32} (hlink : h.table.Links k b) :
    h.asked k b := by
  -- a table that was merged in has only links that its own history asked for
  induction h with
  | new limit => exact not_links_empty limit k b hlink
  | clone h ih => exact ih hlink
  | insert h key bit ih =>
    exact ((addsOnly_insert h.table key bit).asked k b hlink).imp_left ih
  | addRow h key bits ih =>
    exact ((addsOnly_addRow h.table key bits.set).asked k b hlink).imp_left ih
  | merge h other ih ihOther =>
    exact ((addsOnly_merge h.table other.wellFormed_table).asked k b hlink).imp ih ihOther
  | reserve h wanted ih =>
    exact ih (((addsOnly_reserve h.table wanted).asked k b hlink).resolve_right id)
  | amend h key writes ih =>
    exact ((addsOnly_amend h.table key writes).asked k b hlink).imp_left ih

end LinkTable

namespace Sightings

/-! ## §3 Sightings -/

/-- How sightings have come about. -/
inductive History where
  | new (limit : Nat)
  | clone (h : History)
  | insert (h : History) (bucket : Bucket) (doc : Doc)
  | merge (h other : History)

/-- The sightings that calls lead to, whether they answer or fail. -/
def History.sightings : History → Sightings
  | .new limit => .empty limit
  | .clone h => h.sightings
  | .insert h bucket doc => (Sightings.insert bucket doc).after h.sightings
  | .merge h other => (Sightings.merge other.sightings).after h.sightings

/-- Every history leads to sightings that hold what 32-bit numbers address. -/
theorem History.wellFormed_sightings (h : History) : h.sightings.WellFormed := by
  induction h with
  | new limit => exact wellFormed_empty limit
  | clone h ih => exact ih
  | insert h bucket doc ih =>
    rcases gains_after_insert h.sightings bucket doc with hnothing | hpair
    · exact hnothing.wellFormed ih
    · exact hpair.wellFormed ih
  | merge h other ih ihOther =>
    apply after_merge_induction WellFormed ih
    -- segment by segment, a well-formed table is merged into a well-formed one
    intro segment table hentry u hu
    have htable : table.WellFormed := table_of_mem hentry ▸ ihOther segment
    exact hu.withTable ((hu segment).after_merge htable)

/-- Sightings have all pairs of other ones, and besides them only pairs that were asked for. -/
structure AddsOnly (s u : Sightings) (asked : Bucket → Doc → Prop) : Prop where
  kept : ∀ b doc, s.Has b doc → u.Has b doc
  asked : ∀ b doc, u.Has b doc → s.Has b doc ∨ asked b doc

/-- What the table of a segment adds, the sightings add for the documents of that segment. -/
theorem addsOnly_withTable {s : Sightings} {segment : SegmentId} {table : LinkTable}
    {asked : UInt32 → UInt32 → Prop} (h : (s.table segment).AddsOnly table asked) :
    s.AddsOnly (s.withTable segment table) fun b doc => doc.segment = segment ∧ asked b doc.id where
  kept b doc hpair := by
    unfold Has at hpair ⊢
    rw [table_withTable]
    -- documents of the segment are in the new table, the others where they were
    split
    case isTrue hsegment =>
      subst hsegment
      exact h.kept b doc.id hpair
    case isFalse => exact hpair
  asked b doc hpair := by
    unfold Has at hpair ⊢
    rw [table_withTable] at hpair
    -- and read back the same way
    split at hpair
    case isTrue hsegment =>
      subst hsegment
      exact (h.asked b doc.id hpair).imp_right fun hasked => ⟨rfl, hasked⟩
    case isFalse => exact .inl hpair

theorem addsOnly_insert (s : Sightings) (b : Bucket) (doc : Doc) :
    s.AddsOnly ((insert b doc).after s) fun b' doc' => b' = b ∧ doc' = doc := by
  have htable := addsOnly_withTable (LinkTable.addsOnly_insert (s.table doc.segment) b doc.id)
  unfold insert
  rw [after_onSegment]
  refine ⟨htable.kept, fun b' doc' hpair => (htable.asked b' doc' hpair).imp_right ?_⟩
  rintro ⟨hsegment, rfl, hid⟩
  rw [Doc.mk.injEq]
  exact ⟨rfl, hsegment, hid⟩

theorem addsOnly_merge (s : Sightings) {other : Sightings} (hother : other.WellFormed) :
    s.AddsOnly ((merge other).after s) other.Has := by
  -- the documents of other segments are not touched by the table of one
  apply after_merge_induction (fun u => s.AddsOnly u other.Has) ⟨fun _ _ => id, fun _ _ => .inl⟩
  intro segment table hentry u hu
  have htable : table.WellFormed := table_of_mem hentry ▸ hother segment
  have hadds := addsOnly_withTable (LinkTable.addsOnly_merge (u.table segment) htable)
  refine ⟨fun b doc hpair => hadds.kept b doc (hu.kept b doc hpair), fun b doc hpair => ?_⟩
  -- a new pair is a link of the segment's table, and that is a pair of the other sightings
  rcases hadds.asked b doc hpair with hold | ⟨rfl, hlink⟩
  · exact hu.asked b doc hold
  · exact .inr (has_iff_exists_mem.2 ⟨table, hentry, hlink⟩)

end Sightings

/-! ## §4 Every call -/

/-- No call loses a link or makes one up, whatever it returns and wherever it stops, on any table
and on any sightings.  A row that is created and not written into is the case without writes. -/
theorem nothing_lost_nothing_invented (t : LinkTable) (s : Sightings) :
    (∀ key bit, t.AddsOnly ((LinkTable.insert key bit).after t) fun k b => k = key ∧ b = bit) ∧
    (∀ key bits, t.AddsOnly ((LinkTable.addRow key bits).after t) fun k b =>
      k = key ∧ b ∈ bits) ∧
    (∀ other : LinkTable.History,
      t.AddsOnly ((LinkTable.merge other.table).after t) other.table.Links) ∧
    (∀ wanted, t.AddsOnly ((LinkTable.reserve wanted).after t) fun _ _ => False) ∧
    (∀ key writes, t.AddsOnly ((LinkTable.amend key (WordSet.applyAll writes)).after t) fun k b =>
      k = key ∧ b ∈ WordSet.brought writes) ∧
    (∀ b doc, s.AddsOnly ((Sightings.insert b doc).after s) fun b' doc' =>
      b' = b ∧ doc' = doc) ∧
    ∀ other : Sightings.History,
      s.AddsOnly ((Sightings.merge other.sightings).after s) other.sightings.Has :=
  ⟨LinkTable.addsOnly_insert t, LinkTable.addsOnly_addRow t,
    fun other => LinkTable.addsOnly_merge t other.wellFormed_table, LinkTable.addsOnly_reserve t,
    LinkTable.addsOnly_amend t, Sightings.addsOnly_insert s,
    fun other => Sightings.addsOnly_merge s other.wellFormed_sightings⟩

/-- A merge that stops at its second row has added the first one. -/
example :
    let other : LinkTable.History := .insert (.insert (.new 1024) 0 5) 1 5
    let merged := (LinkTable.merge other.table).after (.empty 448)
    merged.links = [(0, 5)] ∧ other.table.links = [(0, 5), (1, 5)] := by
  decide +kernel

end Lineage
