import Lineage.Proofs.Keeping
import Lineage.Proofs.LinkTable.Rows

/-!
# Sightings count documents

Sightings are spread over one table for each segment, yet all that they can be asked depends on the
set of documents that each bucket has been given, one by one or by merging.  So sightings with the
same documents cannot be told apart by their counts, in whichever order they came together.

## Main statements

- `WellFormed.tells`: what sightings can be asked, by the documents of each bucket;
- `Tells.alike`: sightings with the same documents give the same answers;
- `History.has_iff`: the documents that a history leads to;
- `History.tells_documents`: all of this, for any history of calls that answer.
-/

namespace Lineage.Sightings

variable {s u : Sightings}

/-! ## §1 What sightings tell -/

/-- All that sightings can be asked is answered by the documents of each bucket. -/
structure Tells (s : Sightings) (docs : Bucket → Finset Doc) : Prop where
  fresh : ∀ b doc fresh u, insert b doc s = .ok fresh u → (fresh = true ↔ doc ∉ docs b)
  count : ∀ b, s.count b = (docs b).card
  mem_tally : ∀ b, b ∈ s.tally.entries ↔ 0 < s.count b
  get_tally : ∀ b, s.tally.get b = s.count b
  isEmpty : s.isEmpty = true ↔ ∀ b, b ∉ s.tally.entries

theorem count_eq_length (s : Sightings) (b : Bucket) : s.count b = (s.docs b).length := by
  unfold count docs
  rw [List.length_flatMap]
  simp only [List.length_map, WordSet.cardinality_eq_length]
  rfl

theorem WellFormed.isEmpty_iff (h : s.WellFormed) :
    s.isEmpty = true ↔ ∀ b doc, ¬s.Has b doc := by
  -- sightings are empty if no segment has a link, and a link is a pair
  have hlinks (entry : SegmentId × LinkTable) (hmem : entry ∈ s.segments.toList) :
      entry.2.linkCount = 0 ↔ ∀ b id, ¬entry.2.Links b id := by
    have hwf : entry.2.WellFormed := table_of_mem hmem ▸ h entry.1
    rw [LinkTable.linkCount_eq_length, List.length_eq_zero_iff, List.eq_nil_iff_forall_not_mem]
    simp only [Prod.forall, LinkTable.mem_links hwf]
  unfold isEmpty
  simp only [List.all_eq_true, decide_eq_true_eq]
  constructor
  · intro hzero b doc hpair
    obtain ⟨table, hmem, hlink⟩ := has_iff_exists_mem.1 hpair
    exact (hlinks _ hmem).1 (hzero _ hmem) b doc.id hlink
  · intro hnone entry hmem
    rw [hlinks entry hmem]
    intro b id hlink
    exact hnone b ⟨entry.1, id⟩ (has_iff_exists_mem.2 ⟨entry.2, hmem, hlink⟩)

/-- Of well-formed sightings it is enough to know the pairs. -/
theorem WellFormed.tells (h : s.WellFormed) {docs : Bucket → Finset Doc}
    (hdocs : ∀ b doc, s.Has b doc ↔ doc ∈ docs b) : s.Tells docs := by
  -- the pairs of a bucket are its documents, so they are counted as a finite set
  have hset (b : Bucket) : {doc | s.Has b doc} = (docs b : Set Doc) := by
    ext doc
    exact hdocs b doc
  -- every answer is about the number of documents that the bucket has
  have hcount (b : Bucket) : s.count b = {doc | s.Has b doc}.ncard := by
    rw [count_eq_length, ncard_has h]
  have htally := counts_tally h
  have hmem (b : Bucket) : b ∈ s.tally.entries ↔ 0 < s.count b := by
    rw [hcount]
    exact (htally b).2
  refine ⟨fun b doc fresh u hcall => ?_, fun b => ?_, hmem, fun b => ?_, ?_⟩
  · rw [(insert_eq_ok hcall).2, hdocs]
  · rw [hcount, hset, Set.ncard_coe_finset]
  · rw [hcount]
    exact (htally b).1
  · rw [h.isEmpty_iff]
    apply forall_congr'
    intro b
    rw [hmem, hcount, hset, Set.ncard_coe_finset, Finset.card_pos, Finset.not_nonempty_iff_eq_empty,
      Finset.eq_empty_iff_forall_notMem]
    simp only [hdocs]

/-- Two memories give the same answers about what they have counted. -/
structure Alike (s u : Sightings) : Prop where
  count : ∀ b, s.count b = u.count b
  tally : s.tally = u.tally
  isEmpty : s.isEmpty = u.isEmpty

/-- How the documents came together does not show. -/
theorem Tells.alike {docs : Bucket → Finset Doc} (hs : s.Tells docs) (hu : u.Tells docs) :
    s.Alike u := by
  have hcount (b : Bucket) : s.count b = u.count b := by rw [hs.count, hu.count]
  have hentries (b : Bucket) : b ∈ s.tally.entries ↔ b ∈ u.tally.entries := by
    rw [hs.mem_tally, hu.mem_tally, hcount]
  -- all answers come down to the documents, which are the same for both
  refine ⟨hcount, Tally.ext_of_get hentries fun b => ?_, ?_⟩
  · rw [hs.get_tally, hu.get_tally, hcount]
  · rw [Bool.eq_iff_iff, hs.isEmpty, hu.isEmpty]
    simp only [hentries]

/-! ## §2 Histories of calls that answer -/

/-- The documents that a bucket ought to have, if all calls answer. -/
def History.docs : History → Bucket → Finset Doc
  | .new _, _ => ∅
  | .clone h, b => h.docs b
  | .insert h bucket doc, b => if b = bucket then Insert.insert doc (h.docs b) else h.docs b
  | .merge h other, b => h.docs b ∪ other.docs b

/-- All calls have answered, those on memories that were merged in included. -/
def History.Succeeds : History → Prop
  | .new _ => True
  | .clone h => h.Succeeds
  | .insert h bucket doc =>
    h.Succeeds ∧ ((Sightings.insert bucket doc).result h.sightings).isOk
  | .merge h other =>
    h.Succeeds ∧ other.Succeeds ∧ ((Sightings.merge other.sightings).result h.sightings).isOk

/-- Carrying out the calls tells whether all of them answer. -/
instance History.decidableSucceeds : (h : History) → Decidable h.Succeeds
  | .new _ => .isTrue trivial
  | .clone h => h.decidableSucceeds
  | .insert h _ _ =>
    have := h.decidableSucceeds
    inferInstanceAs (Decidable (_ ∧ _))
  | .merge h other =>
    have := h.decidableSucceeds
    have := other.decidableSucceeds
    inferInstanceAs (Decidable (_ ∧ _ ∧ _))

/-- The pairs that sightings have are those that their history says. -/
theorem History.has_iff {h : History} (hs : h.Succeeds) (b : Bucket) (doc : Doc) :
    h.sightings.Has b doc ↔ doc ∈ h.docs b := by
  -- each call adds what it is asked to add, since all of them have answered
  induction h with
  | new limit => exact iff_of_false (not_has_empty limit b doc) (Finset.notMem_empty doc)
  | clone h ih => exact ih hs
  | insert h bucket new ih =>
    obtain ⟨fresh, hcall⟩ := Step.exists_of_isOk hs.2
    rw [sightings, (insert_eq_ok hcall).1.has, ih hs.1, docs]
    split
    case isTrue hb => simp [hb, or_comm]
    case isFalse hb => simp [hb]
  | merge h other ih ihOther =>
    obtain ⟨⟨⟩, hcall⟩ := Step.exists_of_isOk hs.2.2
    rw [sightings, (gains_merge other.wellFormed_sightings hcall).has, ih hs.1, ihOther hs.2.1,
      docs, Finset.mem_union]

theorem History.tells {h : History} (hs : h.Succeeds) : h.sightings.Tells h.docs :=
  h.wellFormed_sightings.tells (h.has_iff hs)

/-- However sightings have come about by calls that answer: they tell the documents of each bucket,
where a document that was seen on both sides of a merge is one document.  In what they tell, the
order of merges makes no difference, nor how merges are grouped, and merging a memory with itself
changes nothing. -/
theorem History.tells_documents (h : History) (hs : h.Succeeds) :
    h.sightings.Tells h.docs ∧
    (∀ other, (merge h other).Succeeds →
      (merge h other).sightings.Tells fun b => h.docs b ∪ other.docs b) ∧
    (∀ other, (merge h other).Succeeds → (merge other h).Succeeds →
      (merge h other).sightings.Alike (merge other h).sightings) ∧
    (∀ other third, (merge (merge h other) third).Succeeds →
      (merge h (merge other third)).Succeeds →
      (merge (merge h other) third).sightings.Alike (merge h (merge other third)).sightings) ∧
    ((merge h h).Succeeds → (merge h h).sightings.Alike h.sightings) := by
  -- the laws of merging are those of the union of the documents
  refine ⟨tells hs, fun other hmerge => tells hmerge, fun other hmerge hmerge' => ?_,
    fun other third hmerge hmerge' => ?_, fun hmerge => ?_⟩
  · have hdocs : (merge other h).docs = (merge h other).docs :=
      funext fun b => Finset.union_comm (other.docs b) (h.docs b)
    exact (tells hmerge).alike (hdocs ▸ tells hmerge')
  · have hdocs : (merge h (merge other third)).docs = (merge (merge h other) third).docs :=
      funext fun b => (Finset.union_assoc (h.docs b) (other.docs b) (third.docs b)).symm
    exact (tells hmerge).alike (hdocs ▸ tells hmerge')
  · have hdocs : (merge h h).docs = h.docs := funext fun b => Finset.union_self (h.docs b)
    exact (hdocs ▸ tells hmerge).alike (tells hs)

/-- Equal ids in two segments, and a document that is seen twice. -/
private def meadow : History :=
  .insert (.insert (.insert (.new 4096) 7 ⟨0, 2⟩) 7 ⟨1, 2⟩) 7 ⟨0, 2⟩

private def pasture : History := .clone (.insert (.insert (.new 8192) 7 ⟨1, 2⟩) 8 ⟨3, 64⟩)

theorem History.tells_documents_pasture :
    meadow.Succeeds ∧ (History.merge meadow pasture).Succeeds ∧
      (History.merge pasture meadow).Succeeds ∧
      (History.merge meadow pasture).sightings.Tells (fun b => meadow.docs b ∪ pasture.docs b) ∧
      (History.merge meadow pasture).sightings.Alike (History.merge pasture meadow).sightings ∧
      meadow.docs 7 ∪ pasture.docs 7 = {⟨0, 2⟩, ⟨1, 2⟩} := by
  have hmeadow : meadow.Succeeds := by decide +kernel
  have hmerge : (History.merge meadow pasture).Succeeds := by decide +kernel
  have hmerge' : (History.merge pasture meadow).Succeeds := by decide +kernel
  have htells := tells_documents meadow hmeadow
  exact ⟨hmeadow, hmerge, hmerge', htells.2.1 pasture hmerge, htells.2.2.1 pasture hmerge hmerge',
    by decide +kernel⟩

end Lineage.Sightings
