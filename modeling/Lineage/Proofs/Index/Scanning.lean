import Lineage.Index.MainDocuments
import Lineage.Proofs.Index.Columns

/-!
# What scans find

A scan of a level finds the live documents that the filter of the level selects, under either
strategy.  Addresses are 32-bit numbers, so this needs a snapshot that they can address.

## Main statements

- `Snapshot.liveDocs_pairwise`: the order in which documents are found;
- `Snapshot.docsOfSets_liveSets`: what is kept of them is read back as it was found;
- `FilterScan.mem_visit`: the documents of a scan.
-/

namespace Lineage.Index

/-- A document comes before another: in an earlier segment, or with a smaller number in the same
one. -/
def ComesBefore (a b : Doc) : Prop :=
  a.segment < b.segment ∨ a.segment = b.segment ∧ a.id < b.id

namespace Snapshot

/-- Segments and the documents inside a segment can be told apart by 32-bit numbers. -/
structure Addressable (s : Snapshot) : Prop where
  segments : s.segments.length ≤ UInt32.size
  docs : ∀ segment ∈ s.segments, segment.size ≤ UInt32.size

/-! ## §1 Live documents -/

theorem toNat_ofNat {i : Nat} (h : i < UInt32.size) : (UInt32.ofNat i).toNat = i := by
  simp only [UInt32.toNat_ofNat', UInt32.size] at h ⊢
  omega

/-- Places are numbered in their order, as long as the numbers last. -/
private theorem ofNat_lt_ofNat {i k : Nat} (h : i < k) (hk : k < UInt32.size) :
    UInt32.ofNat i < UInt32.ofNat k := by
  rw [UInt32.lt_iff_toNat_lt, toNat_ofNat (by omega), toNat_ofNat hk]
  exact h

theorem liveIds_pairwise_lt {segment : Segment} {wanted : Stored → Bool}
    (h : segment.size ≤ UInt32.size) : (segment.liveIds wanted).Pairwise (· < ·) := by
  unfold Segment.liveIds
  rw [List.pairwise_filterMap]
  -- numbers are places, and 32 bits keep the order of the places of this segment
  refine (zipIdx_pairwise_lt segment.toList).imp_of_mem ?_
  rintro ⟨d, i⟩ ⟨d', i'⟩ - hmem hlt id hid id' hid'
  have hi' : i' < segment.size := by
    have hplace := List.mk_mem_zipIdx_iff_getElem?.1 hmem
    rw [Array.getElem?_toList] at hplace
    exact (Array.getElem?_eq_some_iff.1 hplace).1
  cases (Option.ite_none_right_eq_some.1 hid).2
  cases (Option.ite_none_right_eq_some.1 hid').2
  exact ofNat_lt_ofNat hlt (by omega)

theorem mem_liveIds {segment : Segment} {wanted : Stored → Bool} {id : UInt32}
    (h : segment.size ≤ UInt32.size) : id ∈ segment.liveIds wanted ↔
      ∃ d, segment[id.toNat]? = some d ∧ d.isLive = true ∧ wanted d = true := by
  simp only [Segment.liveIds, List.mem_filterMap, Prod.exists, List.mk_mem_zipIdx_iff_getElem?,
    Option.ite_none_right_eq_some, Option.some.injEq, Bool.and_eq_true, Array.getElem?_toList]
  constructor
  · rintro ⟨d, i, hplace, hwanted, rfl⟩
    have hi : i < segment.size := (Array.getElem?_eq_some_iff.1 hplace).1
    rw [toNat_ofNat (by omega)]
    exact ⟨d, hplace, hwanted⟩
  · rintro ⟨d, hplace, hwanted⟩
    exact ⟨d, id.toNat, hplace, hwanted, UInt32.ofNat_toNat⟩

/-- Documents listed segment by segment. -/
private theorem mem_flatMap_zipIdx {segments : List Segment} {doc : Doc}
    (ids : Segment → List UInt32) (h : segments.length ≤ UInt32.size) :
    (doc ∈ segments.zipIdx.flatMap fun entry =>
        (ids entry.1).map fun id => (⟨.ofNat entry.2, id⟩ : Doc)) ↔
      ∃ segment, segments[doc.segment.toNat]? = some segment ∧ doc.id ∈ ids segment := by
  simp only [List.mem_flatMap, List.mem_map, Prod.exists, List.mk_mem_zipIdx_iff_getElem?]
  -- a segment's number is its place, and comes back from 32 bits as that
  constructor
  · rintro ⟨segment, i, hsegment, id, hid, rfl⟩
    have hi : i < segments.length := (List.getElem?_eq_some_iff.1 hsegment).1
    refine ⟨segment, ?_, hid⟩
    rw [toNat_ofNat (by omega)]
    exact hsegment
  · rintro ⟨segment, hsegment, hid⟩
    exact ⟨segment, _, hsegment, doc.id, hid, by rw [UInt32.ofNat_toNat]⟩

variable {s : Snapshot} {wanted : Stored → Bool} {doc : Doc}

private theorem live_iff (h : s.Addressable) :
    (∃ segment, s.segments[doc.segment.toNat]? = some segment ∧
      doc.id ∈ segment.liveIds wanted) ↔
    ∃ d, s.stored? doc = some d ∧ d.isLive = true ∧ wanted d = true := by
  constructor
  · rintro ⟨segment, hsegment, hid⟩
    have hsize := h.docs segment (List.mem_of_getElem? hsegment)
    obtain ⟨d, hplace, hwanted⟩ := (mem_liveIds hsize).1 hid
    exact ⟨d, stored?_eq_some.2 ⟨segment, hsegment, hplace⟩, hwanted⟩
  · rintro ⟨d, hd, hwanted⟩
    obtain ⟨segment, hsegment, hplace⟩ := stored?_eq_some.1 hd
    have hsize := h.docs segment (List.mem_of_getElem? hsegment)
    exact ⟨segment, hsegment, (mem_liveIds hsize).2 ⟨d, hplace, hwanted⟩⟩

/-- Looked up anew, the live documents are those that are live and wanted. -/
theorem mem_liveDocs (h : s.Addressable) : doc ∈ s.liveDocs wanted ↔
    ∃ d, s.stored? doc = some d ∧ d.isLive = true ∧ wanted d = true := by
  unfold liveDocs numbered
  rw [List.flatMap_map, ← live_iff h]
  exact mem_flatMap_zipIdx (fun segment => segment.liveIds wanted) h.segments

/-- Live documents are found segment by segment, and ascending inside a segment. -/
theorem liveDocs_pairwise (h : s.Addressable) : (s.liveDocs wanted).Pairwise ComesBefore := by
  unfold liveDocs numbered
  rw [List.flatMap_map, List.pairwise_flatMap]
  -- inside one segment the numbers ascend; between two of them the segments do
  constructor
  · rintro ⟨segment, i⟩ hmem
    have hsegment := List.mem_of_getElem? (List.mk_mem_zipIdx_iff_getElem?.1 hmem)
    rw [List.pairwise_map]
    exact (liveIds_pairwise_lt (h.docs segment hsegment)).imp fun hlt => .inr ⟨rfl, hlt⟩
  · refine (zipIdx_pairwise_lt s.segments).imp_of_mem ?_
    rintro ⟨segment, i⟩ ⟨segment', i'⟩ - hmem hlt a ha b hb
    have hi' : i' < s.segments.length :=
      (List.getElem?_eq_some_iff.1 (List.mk_mem_zipIdx_iff_getElem?.1 hmem)).1
    obtain ⟨id, -, rfl⟩ := List.mem_map.1 ha
    obtain ⟨id', -, rfl⟩ := List.mem_map.1 hb
    exact .inl (ofNat_lt_ofNat hlt (Nat.lt_of_lt_of_le hi' h.segments))

/-- What is kept of the live documents is read back as it was found. -/
theorem docsOfSets_liveSets (h : s.Addressable) :
    docsOfSets (s.liveSets wanted) = s.liveDocs wanted := by
  unfold docsOfSets liveSets liveDocs numbered
  rw [List.zipIdx_map, List.flatMap_map, List.flatMap_map]
  apply List.flatMap_congr
  rintro ⟨segment, i⟩ hmem
  have hsegment := List.mem_of_getElem? (List.mk_mem_zipIdx_iff_getElem?.1 hmem)
  -- a word set lists its members in ascending order, which the live numbers are in
  have hids : (WordSet.ofList (segment.liveIds wanted)).toList = segment.liveIds wanted :=
    WordSet.toList_ofList (liveIds_pairwise_lt (h.docs segment hsegment))
  simp only [Prod.map_apply, id_eq, hids]

end Snapshot

/-! ## §2 Scans -/

namespace FilterScan

/-- A filter that can be selected by looks for its term. -/
theorem select_eq_ok {s : Snapshot} {filter : FieldTerm} {wanted : Stored → Bool}
    (h : s.select filter = .ok wanted) : wanted = fun d => d.holds filter := by
  unfold Snapshot.select at h
  split at h
  case h_1 => cases h
  case h_2 field _ =>
    unfold Snapshot.termOf at h
    split at h
    case isTrue => exact (Except.ok.inj h).symm
    case isFalse => cases h

/-- A scan starts with the filters' terms to look for, and nothing kept. -/
theorem ofFilters_eq_ok {s : Snapshot} {filters : List FieldTerm} {strategy : ScanStrategy}
    {scan : FilterScan} (h : ofFilters s filters strategy = .ok scan) :
    scan = ⟨s, strategy, filters.map fun filter => (fun d => d.holds filter, none)⟩ := by
  obtain ⟨selected, hselect, hscan⟩ := Step.except_bind_eq_ok.1 h
  cases hscan
  have hselected : selected = filters.map fun filter d => d.holds filter := by
    -- filter by filter, what was selected is known from the filter
    have hall := Step.forall₂_of_mapM_eq_ok hselect
    clear hselect h
    induction hall with
    | nil => rfl
    | cons hfilter _ ih => rw [List.map_cons, select_eq_ok hfilter, ih]
  rw [hselected, List.map_map]
  rfl

/-- The ancestors of a level are the live documents that hold the term of its filter. -/
theorem mem_visit {s : Snapshot} {filters : List FieldTerm} {strategy : ScanStrategy}
    {scan : FilterScan} (hs : s.Addressable) (h : ofFilters s filters strategy = .ok scan)
    (level : Level) (doc : Doc) : doc ∈ (scan.visit (level + 1)).1.docs ↔
      ∃ filter d, filters[level]? = some filter ∧ s.stored? doc = some d ∧ d.isLive = true ∧
        d.holds filter = true := by
  rw [ofFilters_eq_ok h]
  cases hfilter : filters[level]? with
  | none => simp [visit, FilterScan.level, hfilter]
  | some filter =>
    -- as the first walk, a cached one fills its sets and reads them back at once
    cases strategy with
    | scan => simp [visit, FilterScan.level, hfilter, Snapshot.mem_liveDocs hs]
    | cached =>
      simp [visit, FilterScan.level, hfilter, Snapshot.docsOfSets_liveSets hs,
        Snapshot.mem_liveDocs hs]

end FilterScan

end Lineage.Index
