import Lineage.Proofs.Listings
import Lineage.Proofs.Runs

/-!
# Gathering segment by segment

The hits of each segment can be gathered on their own, and the facts brought together afterwards.
As long as nesting does not leave a segment, this comes to the same as one pass over all hits: the
numbers are equal, and the pairs handed on are the same up to their order.  Nothing is handed on
twice, since the gatherers of two segments have no pair in common.

A degraded pass is another matter: it takes its hits without looking at them, which gatherers of
their own never do.

## Main statements

- `Gatherer.Gathers.eq`: what a gatherer of its own makes of its hits;
- `nodup_flatMap_dues`: no pair is due in two segments;
- `GathersApart.agrees`: segment by segment, the same comes out as from a single pass.
-/

namespace Lineage

variable {s : Settings} {p : Partition} {hits hits' : List (Doc × Bucket)}

/-! ## §1 Gathering apart -/

namespace Gatherer

/-- A gatherer of its own takes some hits, to whatever sink; these are the facts that it gives out
and the pairs that it hands on. -/
def Gathers (s : Settings) (p : Partition) (hits : List (Doc × Bucket)) (facts : Facts)
    (pairs : List Handoff) : Prop :=
  ∃ g g' j j' k, start s p = .ok g ∧
    (hits.forM fun (hit, b) => take s p hit b : Step (Gatherer × Journal) Unit) (g, j) =
      .ok () (g', j') ∧
    g'.close j' = .ok facts k ∧ k.sink.taken.toList = j.sink.taken.toList ++ pairs

/-- A gatherer gives out the facts of its hits, and hands on what is due for them. -/
theorem Gathers.eq {facts : Facts} {pairs : List Handoff} (hvalid : s.validate = .ok ())
    (h : Gathers s p hits facts pairs) :
    facts.OfHits s p hits ∧ pairs = (dues s p hits).eraseDups := by
  obtain ⟨g, g', j, j', k, hstart, hrun, hclose, htaken⟩ := h
  -- closing a gatherer gives its facts out and leaves the sink alone
  obtain ⟨rfl, hsink⟩ := close_eq_ok hclose
  obtain ⟨hfacts, htaken'⟩ := forM_take_eq_ok (s.one_le_levels hvalid) hstart hrun
  rw [hsink, htaken'] at htaken
  exact ⟨hfacts, (List.append_cancel_left htaken).symm⟩

end Gatherer

/-- The hits of a segment, in their order. -/
def hitsIn (hits : List (Doc × Bucket)) (segment : SegmentId) : List (Doc × Bucket) :=
  hits.filter fun hit => hit.1.segment = segment

/-- The hits of each segment are gathered apart, the facts are brought together in the order of the
segments, and the whole is finished: the numbers, and all pairs that were handed on. -/
def GathersApart (s : Settings) (p : Partition) (hits : List (Doc × Bucket)) (first : SegmentId)
    (rest : List SegmentId) (tally : Tally Bucket) (pairs : List Handoff) : Prop :=
  ∃ (facts : SegmentId → Facts) (handed : SegmentId → List Handoff) (merged : Facts)
    (final : List Handoff),
    (∀ segment ∈ first :: rest,
      Gatherer.Gathers s p (hitsIn hits segment) (facts segment) (handed segment)) ∧
    (rest.forM fun segment => Facts.merge (facts segment)) (facts first) = .ok () merged ∧
    merged.Finishes s p tally final ∧ pairs = (first :: rest).flatMap handed ++ final

/-- Nested hits have their main documents in their own segment. -/
def Partition.MainsStay (p : Partition) : Prop :=
  ∀ main, p.mainDocument = some main → ∀ hit doc, main hit = some doc → doc.segment = hit.segment

/-! ## §2 What segments have in common -/

variable {segments : List SegmentId}

/-- The hits of all segments are all hits. -/
theorem mem_flatMap_hitsIn (hcover : ∀ hit ∈ hits, hit.1.segment ∈ segments)
    (hit : Doc × Bucket) : hit ∈ segments.flatMap (hitsIn hits) ↔ hit ∈ hits := by
  simp only [List.mem_flatMap, hitsIn, List.mem_filter, decide_eq_true_eq]
  -- every hit is in the list of its own segment
  constructor
  · rintro ⟨segment, -, hmem, -⟩
    exact hmem
  · intro hmem
    exact ⟨hit.1.segment, hcover hit hmem, hmem, rfl⟩

/-- The facts of the segments come together to the facts of all their hits. -/
theorem ofHits_of_merge {facts : SegmentId → Facts} {first : SegmentId} {rest : List SegmentId}
    {merged : Facts} {a : Unit}
    (hfacts : ∀ segment ∈ first :: rest, (facts segment).OfHits s p (hitsIn hits segment))
    (h : (rest.forM fun segment => Facts.merge (facts segment)) (facts first) = .ok a merged) :
    merged.OfHits s p ((first :: rest).flatMap (hitsIn hits)) := by
  -- the segments merged so far have brought in exactly their hits
  have hrun := Step.forM_induction
    (fun done f => f.OfHits s p (hitsIn hits first ++ done.flatMap (hitsIn hits)))
    (by simpa using hfacts first List.mem_cons_self) ?carry h
  case carry =>
    intro done segment rest' f g hsplit hdone hmerge
    have hmem : segment ∈ first :: rest := by simp [hsplit]
    have hmerged := hdone.merge (hfacts segment hmem) hmerge
    simpa [List.flatMap_append, List.append_assoc] using hmerged
  exact hrun

theorem Partition.MainsStay.target (h : p.MainsStay) {hit doc : Doc}
    (htarget : p.target s hit = some doc) : doc.segment = hit.segment := by
  unfold Partition.target at htarget
  split at htarget
  case isTrue =>
    obtain ⟨main, hmain, hdoc⟩ := Option.bind_eq_some_iff.1 htarget
    exact h main hmain hit doc hdoc
  case isFalse => rw [Option.some.inj htarget]

/-- A hit is handed on as a document of its own segment. -/
theorem segment_of_due (h : p.MainsStay) {hit : Doc} {b : Bucket} {pair : Handoff}
    (hdue : Gatherer.due s p hit b = some pair) : pair.doc.segment = hit.segment := by
  unfold Gatherer.due at hdue
  split at hdue
  case isFalse => cases hdue
  case isTrue =>
    -- as itself, or as its main document
    split at hdue
    case h_1 =>
      cases hdue
      rfl
    case h_2 =>
      split at hdue
      case isFalse => cases hdue
      case isTrue =>
        obtain ⟨doc, htarget, rfl⟩ := Option.map_eq_some_iff.1 hdue
        exact h.target htarget

/-- The pairs due for the segments are those due for all hits. -/
theorem mem_flatMap_dues (hcover : ∀ hit ∈ hits, hit.1.segment ∈ segments) (pair : Handoff) :
    pair ∈ segments.flatMap (fun segment =>
        (Gatherer.dues s p (hitsIn hits segment)).eraseDups) ↔ pair ∈ Gatherer.dues s p hits := by
  simp only [List.mem_flatMap, List.mem_eraseDups, Gatherer.dues, List.mem_filterMap, hitsIn,
    List.mem_filter, decide_eq_true_eq]
  constructor
  · rintro ⟨segment, -, hit, ⟨hmem, -⟩, hdue⟩
    exact ⟨hit, hmem, hdue⟩
  · rintro ⟨hit, hmem, hdue⟩
    exact ⟨hit.1.segment, hcover hit hmem, hit, ⟨hmem, rfl⟩, hdue⟩

/-- No pair is due in two segments. -/
theorem nodup_flatMap_dues (hmains : p.MainsStay) (hsegments : segments.Nodup) :
    (segments.flatMap fun segment =>
      (Gatherer.dues s p (hitsIn hits segment)).eraseDups).Nodup := by
  -- a pair tells the segment that it is due in
  have hsegment (segment : SegmentId) (pair : Handoff)
      (hpair : pair ∈ (Gatherer.dues s p (hitsIn hits segment)).eraseDups) :
      pair.doc.segment = segment := by
    obtain ⟨hit, hmem, hdue⟩ := List.mem_filterMap.1 (List.mem_eraseDups.1 hpair)
    rw [segment_of_due hmains hdue]
    simpa using (List.mem_filter.1 hmem).2
  rw [List.nodup_flatMap]
  refine ⟨fun segment _ => nodup_eraseDups _, hsegments.imp fun hne pair hpair hpair' => ?_⟩
  exact hne ((hsegment _ pair hpair).symm.trans (hsegment _ pair hpair'))

/-! ## §3 Segments and a single pass -/

/-- Gathering segment by segment and bringing the facts together, in whatever order of the segments,
comes to the same as a pass over all hits, in whatever order of the hits: the numbers are equal, and
so are the pairs handed on, none of them twice. -/
theorem GathersApart.agrees {first : SegmentId} {rest : List SegmentId}
    {tally tally' : Tally Bucket} {pairs pairs' : List Handoff} (hmains : p.MainsStay)
    (hsegments : (first :: rest).Nodup)
    (hcover : ∀ hit ∈ hits, hit.1.segment ∈ first :: rest) (hperm : hits.Perm hits')
    (hapart : GathersApart s p hits first rest tally pairs)
    (hpass : Pass.Runs s p hits' false tally' pairs') :
    tally = tally' ∧ pairs.Nodup ∧ pairs.Perm pairs' := by
  have hvalid := hpass.gathered.1
  obtain ⟨hcounts', hall'⟩ := hpass.eq
  obtain ⟨facts, handed, merged, final, hgathers, hmerge, hfinishes, rfl⟩ := hapart
  -- every segment has handed on what is due for its hits
  have hhanded : (first :: rest).flatMap handed = (first :: rest).flatMap fun segment =>
      (Gatherer.dues s p (hitsIn hits segment)).eraseDups := by
    apply List.flatMap_congr
    intro segment hmem
    exact ((hgathers segment hmem).eq hvalid).2
  -- in whatever order they were merged, the facts are those of all hits
  have hmerged : merged.OfHits s p hits :=
    (ofHits_of_merge (fun segment hmem => ((hgathers segment hmem).eq hvalid).1) hmerge).congr
      (mem_flatMap_hitsIn hcover)
  obtain ⟨hcounts, hnodup, hdelivered⟩ := hfinishes.eq hmerged
  have hall : HandsOnAll s p hits ((first :: rest).flatMap handed ++ final) := by
    rw [hhanded]
    exact .of_append (nodup_flatMap_dues hmains hsegments) (mem_flatMap_dues hcover) hnodup
      hdelivered
  -- both are told by their hits now, and those are the same
  have hsame (hit : Doc × Bucket) : hit ∈ hits ↔ hit ∈ hits' := hperm.mem_iff
  exact ⟨(hcounts.congr hsame).unique hcounts', hall.nodup, hall.perm hall' hsame⟩

private theorem mainsStay_listing (l : Listing) : l.toPartition.MainsStay := by
  intro main hmain hit doc hdoc
  exact Listing.segment_of_main (l := l) (Option.bind_eq_some_iff.2 ⟨main, hmain, hdoc⟩)

/-- Two segments with a document each that carries a common ordinal, and one ancestor. -/
def twins : Listing where
  keys := [(⟨0, 0⟩, 0, [1]), (⟨1, 0⟩, 0, [1]), (⟨1, 5⟩, 0, [1]), (⟨1, 5⟩, 1, [4])]
  ancestors := [[⟨1, 5⟩]]
  mains := none
  refusals := []

/-- Hits are handed on, and a missing relation is masked. -/
def lenient : Settings := { Settings.default with resilient := true, forwardHits := true }

/-- Hits of two segments in turn. -/
def twinHits : List (Doc × Bucket) :=
  [(⟨1, 0⟩, 7), (⟨0, 0⟩, 7), (⟨1, 0⟩, 7), (⟨0, 0⟩, 8)]

/-- What a gatherer of its own makes of hits that it can take. -/
private theorem gathers_takeEach {g : Gatherer} (hstart : Gatherer.start s p = .ok g)
    (h : (hits.forM fun (hit, b) => Gatherer.take s p hit b :
      Step (Gatherer × Journal) Unit).Answers (g, .start .unlimited) fun _ _ => True) :
    Gatherer.Gathers s p hits (Gatherer.takeEach s p hits (g, .start .unlimited)).1.facts
      (Gatherer.takeEach s p hits (g, .start .unlimited)).2.sink.taken.toList := by
  obtain ⟨⟨⟩, ⟨g', j'⟩, htakes, -⟩ := Step.answers_iff.1 h
  rw [← Gatherer.takeEach_of_forM htakes]
  exact ⟨g, g', _, j', _, hstart, htakes, rfl, by simp [Journal.start, Sink.unlimited]⟩

/-- A gatherer before its first hit. -/
private def fresh (s : Settings) : Gatherer × Journal :=
  (⟨Gatherer.factsFor s, Gatherer.forwardingFor s, .empty, 0⟩, .start .unlimited)

/-- A segment whose hits can be taken, gathered and finished on its own. -/
private theorem gathersApart_of_answers {first : SegmentId} {rest : List SegmentId}
    {P : Tally Bucket → List Handoff → Prop} (hstart : Gatherer.start s p = .ok (fresh s).1)
    (hgathered : ∀ segment ∈ first :: rest, ((hitsIn hits segment).forM fun (hit, b) =>
      Gatherer.take s p hit b : Step (Gatherer × Journal) Unit).Answers (fresh s) fun _ _ => True)
    (hfinished : (rest.forM fun segment => Facts.merge
        (Gatherer.takeEach s p (hitsIn hits segment) (fresh s)).1.facts).Answers
      (Gatherer.takeEach s p (hitsIn hits first) (fresh s)).1.facts fun _ merged =>
        (merged.tally s p).Answers (.start .unlimited) fun tally k =>
          P tally ((first :: rest).flatMap (fun segment =>
            (Gatherer.takeEach s p (hitsIn hits segment) (fresh s)).2.sink.taken.toList) ++
              k.sink.taken.toList)) :
    ∃ tally pairs, GathersApart s p hits first rest tally pairs ∧ P tally pairs := by
  obtain ⟨⟨⟩, merged, hmerge, hrest⟩ := Step.answers_iff.1 hfinished
  obtain ⟨tally, k, htally, hP⟩ := Step.answers_iff.1 hrest
  refine ⟨tally, _, ⟨_, _, merged, k.sink.taken.toList, fun segment hmem => ?_, hmerge,
    ⟨.start .unlimited, k, htally, by simp [Journal.start, Sink.unlimited]⟩, rfl⟩, hP⟩
  exact gathers_takeEach hstart (hgathered segment hmem)

private theorem twins_apart : ∃ tally pairs,
    GathersApart lenient twins.toPartition twinHits 1 [0] tally pairs ∧ tally.get 7 = 1 :=
  gathersApart_of_answers rfl
    (List.forall_mem_cons.2 ⟨by decide +kernel, List.forall_mem_singleton.2 (by decide +kernel)⟩)
    (by decide +kernel)

private theorem twins_together : ∃ tally pairs,
    Pass.Runs lenient twins.toPartition twinHits.reverse false tally pairs ∧ pairs.length = 3 :=
  Pass.runs_of_answers (by decide +kernel)

/-- The hits of the twins, the later segment first, against a pass over them in reverse. -/
theorem GathersApart.agrees_twins : ∃ tally pairs pairs',
    GathersApart lenient twins.toPartition twinHits 1 [0] tally pairs ∧
    Pass.Runs lenient twins.toPartition twinHits.reverse false tally pairs' ∧
    tally.get 7 = 1 ∧ pairs.Nodup ∧ pairs.length = 3 := by
  obtain ⟨tally, pairs, hapart, hone⟩ := twins_apart
  obtain ⟨tally', pairs', hpass, hthree⟩ := twins_together
  obtain ⟨rfl, hnodup, hperm⟩ := GathersApart.agrees (mainsStay_listing twins) (by decide)
    (by decide) twinHits.reverse_perm.symm hapart hpass
  exact ⟨tally, pairs, pairs', hapart, hpass, hone, hnodup, hperm.length_eq.trans hthree⟩

/-- A partition without any relation. -/
def barren : Listing where
  keys := []
  ancestors := []
  mains := none
  refusals := []

private theorem barren_apart : ∃ tally pairs,
    GathersApart lenient barren.toPartition [(⟨0, 0⟩, 0)] 0 [] tally pairs ∧ pairs.length = 1 :=
  gathersApart_of_answers rfl (List.forall_mem_singleton.2 (by decide +kernel)) (by decide +kernel)

private theorem barren_degraded : ∃ tally pairs,
    Pass.Runs lenient barren.toPartition [(⟨0, 0⟩, 0)] true tally pairs ∧ pairs = [] :=
  Pass.runs_of_answers (by decide +kernel)

/-- A degraded pass hands nothing on, where a gatherer of its own hands on its hit. -/
theorem degraded_pass_disagrees :
    ¬∀ (s : Settings) (p : Partition) (hits hits' : List (Doc × Bucket)) (first : SegmentId)
      (rest : List SegmentId) (degraded : Bool) (tally tally' : Tally Bucket)
      (pairs pairs' : List Handoff), p.MainsStay → (first :: rest).Nodup →
      (∀ hit ∈ hits, hit.1.segment ∈ first :: rest) → hits.Perm hits' →
      GathersApart s p hits first rest tally pairs →
      Pass.Runs s p hits' degraded tally' pairs' →
      tally = tally' ∧ pairs.Nodup ∧ pairs.Perm pairs' := by
  -- with no relation to run over, the pass is degraded and the gatherer is not
  intro hagrees
  obtain ⟨tally, pairs, hapart, hone⟩ := barren_apart
  obtain ⟨tally', pairs', hpass, rfl⟩ := barren_degraded
  obtain ⟨-, -, hperm⟩ := hagrees lenient barren.toPartition _ _ 0 [] true tally tally' pairs []
    (mainsStay_listing barren) (by decide) (by decide) (.refl _) hapart hpass
  rw [hperm.length_eq] at hone
  cases hone

end Lineage
