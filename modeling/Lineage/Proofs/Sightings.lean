import Lineage.Proofs.TallySums
import Lineage.Sightings

/-!
# What sightings hold

A memory of sightings is a set of pairs of a bucket and a document, whatever the order in which
they were noted and however they are spread over the tables of the segments.

## Main statements

- `Sightings.insert_eq_ok`, `Sightings.gains_after_insert`: noting a pair, whether or not it fails;
- `Sightings.gains_merge`: merging is union;
- `Sightings.counts_tally`: the tally counts the documents of every bucket.
-/

namespace Lineage

namespace Sightings

/-! ## §1 Pairs -/

/-- A document has been seen for a bucket. -/
def Has (s : Sightings) (b : Bucket) (doc : Doc) : Prop := (s.table doc.segment).Links b doc.id

instance (s : Sightings) (b : Bucket) (doc : Doc) : Decidable (s.Has b doc) :=
  inferInstanceAs (Decidable (LinkTable.Links _ _ _))

/-- The table of every segment holds what 32-bit numbers address. -/
def WellFormed (s : Sightings) : Prop := ∀ segment, (s.table segment).WellFormed

/-- A memory has gained pairs: it has its old ones and the added ones. -/
structure Gains (s u : Sightings) (added : Bucket → Doc → Prop) : Prop where
  has : ∀ b doc, u.Has b doc ↔ s.Has b doc ∨ added b doc
  wellFormed : s.WellFormed → u.WellFormed

theorem Gains.refl (s : Sightings) : s.Gains s fun _ _ => False where
  has _ _ := by simp
  wellFormed := id

theorem Gains.trans {s u v : Sightings} {p q : Bucket → Doc → Prop} (h : s.Gains u p)
    (h' : u.Gains v q) : s.Gains v fun b doc => p b doc ∨ q b doc where
  has b doc := by rw [h'.has, h.has, or_assoc]
  wellFormed := h'.wellFormed ∘ h.wellFormed

theorem Gains.congr {s u : Sightings} {p q : Bucket → Doc → Prop} (h : s.Gains u p)
    (hpq : ∀ b doc, p b doc ↔ q b doc) : s.Gains u q where
  has b doc := by rw [h.has, hpq]
  wellFormed := h.wellFormed

@[simp] theorem table_empty (limit : Nat) (segment : SegmentId) :
    (empty limit).table segment = .empty limit := by
  simp [empty, table]

theorem not_has_empty (limit : Nat) (b : Bucket) (doc : Doc) : ¬(empty limit).Has b doc := by
  unfold Has
  rw [table_empty]
  exact LinkTable.not_links_empty limit b doc.id

theorem wellFormed_empty (limit : Nat) : (empty limit).WellFormed := by
  intro segment
  rw [table_empty]
  exact LinkTable.wellFormed_empty limit

/-! ## §2 Steps on the table of a segment -/

/-- A memory with another table for a segment. -/
def withTable (s : Sightings) (segment : SegmentId) (table : LinkTable) : Sightings :=
  { s with segments := s.segments.insert segment table }

theorem table_withTable (s : Sightings) (segment : SegmentId) (table : LinkTable)
    (other : SegmentId) :
    (s.withTable segment table).table other = if segment = other then table else s.table other := by
  unfold withTable Sightings.table
  rw [Std.ExtTreeMap.getD_insert]
  simp only [Std.LawfulEqOrd.compare_eq_iff_eq]

theorem WellFormed.withTable {s : Sightings} (h : s.WellFormed) {segment : SegmentId}
    {table : LinkTable} (htable : table.WellFormed) : (s.withTable segment table).WellFormed := by
  intro other
  rw [table_withTable]
  split
  case isTrue => exact htable
  case isFalse => exact h other

/-- What the table of a segment gains, the memory gains for the documents of that segment. -/
theorem gains_withTable {s : Sightings} {segment : SegmentId} {table : LinkTable}
    {added : UInt32 → UInt32 → Prop} (h : (s.table segment).Gains table added) :
    s.Gains (s.withTable segment table) fun b doc => doc.segment = segment ∧ added b doc.id where
  has b doc := by
    unfold Has
    rw [table_withTable]
    -- documents of the segment are looked up in the new table, all others as before
    by_cases hsegment : segment = doc.segment
    · subst hsegment
      simp [h.links]
    · simp [hsegment, Ne.symm hsegment]
  wellFormed hwf := hwf.withTable (h.wellFormed (hwf segment))

theorem onSegment_eq_ok {α : Type} {segment : SegmentId} {step : Step LinkTable α}
    {s u : Sightings} {a : α} (h : onSegment segment step s = .ok a u) :
    ∃ table, step (s.table segment) = .ok a table ∧ u = s.withTable segment table := by
  obtain ⟨r, r', hget, hstep⟩ := Step.bind_eq_ok.1 h
  obtain ⟨rfl, rfl⟩ := Step.get_eq_ok.1 hget
  obtain ⟨table, htable, rfl⟩ := Step.inside_eq_ok.1 hstep
  exact ⟨table, htable, rfl⟩

theorem after_onSegment {α : Type} (segment : SegmentId) (step : Step LinkTable α)
    (s : Sightings) :
    (onSegment segment step).after s = s.withTable segment (step.after (s.table segment)) := by
  unfold onSegment
  rw [Step.after_get_bind, Step.after_inside]
  rfl

/-! ## §3 Noting a pair -/

theorem insert_eq_ok {s u : Sightings} {b : Bucket} {doc : Doc} {fresh : Bool}
    (h : insert b doc s = .ok fresh u) :
    s.Gains u (fun b' doc' => b' = b ∧ doc' = doc) ∧ (fresh = true ↔ ¬s.Has b doc) := by
  obtain ⟨table, hinsert, rfl⟩ := onSegment_eq_ok h
  obtain ⟨-, -, hfresh⟩ := LinkTable.insert_eq_ok hinsert
  refine ⟨(gains_withTable (LinkTable.gains_insert hinsert)).congr fun b' doc' => ?_, hfresh⟩
  rw [Doc.mk.injEq]
  tauto

/-- An attempt to note a pair has noted it or nothing, even if it fails. -/
theorem gains_after_insert (s : Sightings) (b : Bucket) (doc : Doc) :
    (s.Gains ((insert b doc).after s) fun _ _ => False) ∨
      s.Gains ((insert b doc).after s) fun b' doc' => b' = b ∧ doc' = doc := by
  unfold insert
  rw [after_onSegment]
  rcases LinkTable.gains_after_insert (s.table doc.segment) b doc.id with h | h
  · exact .inl ((gains_withTable h).congr (by simp))
  · refine .inr ((gains_withTable h).congr fun b' doc' => ?_)
    rw [Doc.mk.injEq]
    tauto

/-! ## §4 Merging -/

/-- The table that is listed for a segment is the one that it has. -/
theorem table_of_mem {s : Sightings} {segment : SegmentId} {table : LinkTable}
    (h : (segment, table) ∈ s.segments.toList) : s.table segment = table := by
  have hget := Std.ExtTreeMap.mem_toList_iff_getElem?_eq_some.1 h
  rw [Sightings.table, Std.ExtTreeMap.getD_eq_getD_getElem?, hget, Option.getD_some]

/-- The pairs of a memory are those of the listed tables. -/
theorem has_iff_exists_mem {s : Sightings} {b : Bucket} {doc : Doc} :
    s.Has b doc ↔ ∃ table, (doc.segment, table) ∈ s.segments.toList ∧ table.Links b doc.id := by
  constructor
  · intro h
    unfold Has Sightings.table at h
    rw [Std.ExtTreeMap.getD_eq_getD_getElem?] at h
    -- a segment without a table has seen nothing
    cases hget : s.segments[doc.segment]? with
    | none =>
      rw [hget] at h
      exact absurd h (LinkTable.not_links_empty s.limit b doc.id)
    | some table =>
      rw [hget] at h
      exact ⟨table, Std.ExtTreeMap.mem_toList_iff_getElem?_eq_some.2 hget, h⟩
  · rintro ⟨table, hmem, hlink⟩
    unfold Has
    rwa [table_of_mem hmem]

/-- What merging the tables of the segments keeps, merging keeps, wherever it may break off. -/
theorem after_merge_induction {s other : Sightings} (I : Sightings → Prop) (start : I s)
    (merged : ∀ segment table, (segment, table) ∈ other.segments.toList → ∀ u, I u →
      I (u.withTable segment ((LinkTable.merge table).after (u.table segment)))) :
    I ((merge other).after s) := by
  apply Step.after_forM_induction I start
  rintro ⟨segment, table⟩ hentry u hu
  rw [after_onSegment]
  exact merged segment table hentry u hu

/-- Merging adds the pairs of the other memory and no others. -/
theorem gains_merge {s u other : Sightings} (hother : other.WellFormed) {a : Unit}
    (h : merge other s = .ok a u) : s.Gains u other.Has := by
  -- the tables merged so far make up the pairs gained so far
  have hrun := Step.forM_induction
    (fun done v => s.Gains v fun b doc =>
      ∃ table, (doc.segment, table) ∈ done ∧ table.Links b doc.id)
    ((Gains.refl s).congr (by simp)) ?carry h
  case carry =>
    intro done entry rest v w hsplit hdone hmerge
    obtain ⟨segment, table⟩ := entry
    have hmem : (segment, table) ∈ other.segments.toList := by simp [hsplit]
    have hwf : table.WellFormed := table_of_mem hmem ▸ hother segment
    obtain ⟨merged, hmerged, rfl⟩ := onSegment_eq_ok hmerge
    have hgains := gains_withTable (LinkTable.gains_merge hwf hmerged)
    refine (hdone.trans hgains).congr fun b doc => ?_
    simp only [List.mem_append, List.mem_singleton, Prod.mk.injEq, or_and_right, exists_or]
    apply or_congr_right
    constructor
    · intro hnew
      exact ⟨table, ⟨hnew.1, rfl⟩, hnew.2⟩
    · rintro ⟨table', ⟨hsegment, rfl⟩, hlink⟩
      exact ⟨hsegment, hlink⟩
  exact hrun.congr fun b doc => has_iff_exists_mem.symm

/-! ## §5 Counting -/

/-- The documents seen for a bucket, segment by segment. -/
def docs (s : Sightings) (b : Bucket) : List Doc :=
  s.segments.toList.flatMap fun entry => (entry.2.row b).toList.map fun id => ⟨entry.1, id⟩

theorem mem_docs {s : Sightings} (h : s.WellFormed) {b : Bucket} {doc : Doc} :
    doc ∈ s.docs b ↔ s.Has b doc := by
  unfold docs
  rw [has_iff_exists_mem]
  simp only [List.mem_flatMap, List.mem_map, Prod.exists]
  -- the table that lists a document is the one of its segment
  constructor
  · rintro ⟨segment, table, hmem, id, hid, rfl⟩
    have hwf : table.WellFormed := table_of_mem hmem ▸ h segment
    exact ⟨table, hmem, (WordSet.mem_toList (hwf.rows b)).1 hid⟩
  · rintro ⟨table, hmem, hlink⟩
    have hwf : table.WellFormed := table_of_mem hmem ▸ h doc.segment
    exact ⟨doc.segment, table, hmem, doc.id, (WordSet.mem_toList (hwf.rows b)).2 hlink, rfl⟩

/-- No document is listed twice: segments are listed once, and so are the ids of each. -/
theorem nodup_docs {s : Sightings} (h : s.WellFormed) (b : Bucket) : (s.docs b).Nodup := by
  unfold docs List.Nodup
  rw [List.pairwise_flatMap]
  -- the documents of one table differ in their ids, those of two tables in their segments
  constructor
  · rintro ⟨segment, table⟩ hmem
    have hwf : table.WellFormed := table_of_mem hmem ▸ h segment
    apply List.Nodup.map _ (WordSet.toList_nodup (hwf.rows b))
    intro id id' heq
    exact (Doc.mk.inj heq).2
  · apply s.segments.distinct_keys_toList.imp
    intro entry entry' hdistinct doc hdoc doc' hdoc' heq
    obtain ⟨id, -, rfl⟩ := List.mem_map.1 hdoc
    obtain ⟨id', -, rfl⟩ := List.mem_map.1 hdoc'
    apply hdistinct
    rw [Std.LawfulEqOrd.compare_eq_iff_eq]
    exact (Doc.mk.inj heq).1

theorem ncard_has {s : Sightings} (h : s.WellFormed) (b : Bucket) :
    {doc | s.Has b doc}.ncard = (s.docs b).length := by
  classical
  have hset : {doc | s.Has b doc} = ((s.docs b).toFinset : Set Doc) := by
    ext doc
    simp [mem_docs h]
  rw [hset, Set.ncard_coe_finset, List.toFinset_card_of_nodup (nodup_docs h b)]

/-- The tally counts, for every bucket, the documents seen for it; there is an entry exactly for
the buckets that have seen any. -/
theorem counts_tally {s : Sightings} (h : s.WellFormed) :
    s.tally.CountsSets fun b => {doc | s.Has b doc} := by
  intro b
  have hwf (entry : SegmentId × LinkTable) (hmem : entry ∈ s.segments.toList) :
      entry.2.WellFormed := table_of_mem hmem ▸ h entry.1
  -- both the list of documents and the tally are put together segment by segment
  have hlength : (s.docs b).length =
      (s.segments.toList.map fun entry => (entry.2.row b).cardinality).sum := by
    unfold docs
    rw [List.length_flatMap]
    simp only [List.length_map, WordSet.cardinality_eq_length]
  rw [ncard_has h, hlength, tally, Tally.get_sum, Tally.mem_sum, List.map_map]
  constructor
  · congr 1
    apply List.map_congr_left
    intro entry hmem
    exact Tally.get_ofTable (hwf entry hmem) b
  · rw [List.sum_pos_iff_exists_pos_nat]
    simp only [List.mem_map, exists_exists_and_eq_and]
    apply exists_congr
    intro entry
    apply and_congr_right
    intro hmem
    exact Tally.mem_ofTable (hwf entry hmem)

end Sightings

end Lineage
