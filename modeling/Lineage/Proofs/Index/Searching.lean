import Lineage.Index.SearchPass
import Lineage.Proofs.Runs

/-!
# What searches gather and count

The hits of a search are gathered segment by segment, and the facts of the segments are brought
together before the levels are climbed.  A search that ends with a report has counted what all of
its hits reach, as one gatherer would have.

## Main statements

- `SearchPass.mem_allHits`: the hits are the matched documents with the buckets assigned to them;
- `SearchPass.takeSegment_eq_ok`: what is left by one segment;
- `SearchPass.forM_addYield_eq_ok`, `SearchPass.bringTogether_eq_ok`: all segments together;
- `SearchPass.runOver_countsReached`: the numbers of a report.
-/

namespace Lineage.Index

theorem internally_eq_ok {σ α : Type} {step : Step σ α} {s t : σ} {a : α} :
    internally step s = .ok a t ↔ step s = .ok a t := by
  unfold internally
  cases step s <;> simp

/-- A document is among the matched ones of its segment, and is assigned to a bucket. -/
def Bucketing.Assigns (bucketing : Bucketing) (matched : List (SegmentId × List UInt32))
    (hit : Doc) (b : Bucket) : Prop :=
  (∃ ids, (hit.segment, ids) ∈ matched ∧ hit.id ∈ ids) ∧ b ∈ bucketing.buckets hit

namespace SearchPass

variable {pass : SearchPass} {p : Partition} {segment : SegmentId} {ids : List UInt32}
  {y : SegmentYield} {j k : Journal}

/-- A search that is not degraded runs over the partition that was opened, under valid settings,
and assigns buckets as it was told to. -/
theorem start_eq_ok {s : Settings} {opened : Except Fault Partition} {bucketing : Bucketing}
    (h : SearchPass.start s opened bucketing j = .ok pass k)
    (hrunning : pass.partition = some p) :
    pass.settings = s ∧ pass.bucketing = bucketing ∧ s.validate = .ok () ∧ opened = .ok p := by
  obtain ⟨settled, r, hsettle, hpure⟩ := Step.bind_eq_ok.1 h
  obtain ⟨rfl, rfl⟩ := Step.pure_eq_ok.1 hpure
  obtain rfl : settled = some p := hrunning
  obtain ⟨hvalid, hopened, -⟩ := settle_eq_ok hsettle
  exact ⟨rfl, rfl, hvalid, hopened⟩

/-! ## §1 Hits -/

/-- All hits of a search, segment by segment. -/
def allHits (pass : SearchPass) (matched : List (SegmentId × List UInt32)) :
    List (Doc × Bucket) :=
  matched.flatMap fun entry => pass.hitsOf entry.1 entry.2

/-- The hits of a segment are its matched documents, once for each bucket they are assigned to. -/
theorem mem_hitsOf {hit : Doc} {b : Bucket} : (hit, b) ∈ pass.hitsOf segment ids ↔
    hit.segment = segment ∧ hit.id ∈ ids ∧ b ∈ pass.bucketing.buckets hit := by
  unfold hitsOf
  rw [List.mem_flatMap]
  constructor
  · rintro ⟨id, hid, hmem⟩
    obtain ⟨bucket, hbucket, heq⟩ := List.mem_map.1 hmem
    obtain ⟨rfl, rfl⟩ := Prod.mk.inj heq
    exact ⟨rfl, hid, hbucket⟩
  · rintro ⟨rfl, hid, hbucket⟩
    exact ⟨hit.id, hid, List.mem_map.2 ⟨b, hbucket, rfl⟩⟩

theorem mem_allHits {matched : List (SegmentId × List UInt32)} {hit : Doc} {b : Bucket} :
    (hit, b) ∈ pass.allHits matched ↔ pass.bucketing.Assigns matched hit b := by
  unfold allHits Bucketing.Assigns
  rw [List.mem_flatMap]
  constructor
  · rintro ⟨⟨segment, ids⟩, hentry, hmem⟩
    obtain ⟨rfl, hid, hbucket⟩ := mem_hitsOf.1 hmem
    exact ⟨⟨ids, hentry, hid⟩, hbucket⟩
  · rintro ⟨⟨ids, hentry, hid⟩, hbucket⟩
    exact ⟨_, hentry, mem_hitsOf.2 ⟨rfl, hid, hbucket⟩⟩

/-! ## §2 One segment -/

/-- The gathering of a segment's hits. -/
def gathering (pass : SearchPass) (p : Partition) (segment : SegmentId) (ids : List UInt32) :
    Step (Gatherer × Journal) Unit :=
  pass.gather p (pass.hitsOf segment ids)

/-- The journal in which a segment's hits are gathered, with room for all pairs. -/
def apart (j : Journal) : Journal := { j with sink := .unlimited }

/-- What is left by a gathering, told by how it came out and where it ended. -/
def yieldOf (outcome : Except Fault Unit) (x : Gatherer × Journal) : SegmentYield where
  facts := some x.1.facts
  handedOn := x.2.sink.taken.toList
  fault := match outcome with
    | .ok () => none
    | .error fault => some fault

/-- The journal after a segment: its hits are counted, and the sink is as it was. -/
def journalAfter (j : Journal) (x : Gatherer × Journal) : Journal :=
  { x.2 with sink := j.sink, statistics := x.2.statistics.addCollected (.ofNat x.1.hits) }

/-- Once its hits can be assigned to buckets and gathered at all, a segment is taken.  A fault on
the way is left together with what has been gathered up to it. -/
theorem takeSegment_of_gathering {g : Gatherer} {outcome : Except Fault Unit}
    {x : Gatherer × Journal} (hpartition : pass.partition = some p)
    (hassign : pass.bucketing.ready segment = .ok ())
    (hstart : Gatherer.start pass.settings p = .ok g)
    (hgathering : (pass.gathering p segment ids).attempt (g, apart j) = .ok outcome x) :
    pass.takeSegment segment ids j = .ok (yieldOf outcome x) (journalAfter j x) := by
  have hassigned : internally (Step.ofExcept (pass.bucketing.ready segment)) j = .ok () j :=
    internally_eq_ok.2 (Step.ofExcept_eq_ok.2 ⟨hassign, rfl⟩)
  have hstarted : internally (Step.ofExcept (Gatherer.start pass.settings p)) j = .ok g j :=
    internally_eq_ok.2 (Step.ofExcept_eq_ok.2 ⟨hstart, rfl⟩)
  -- where the gathering ended is read before its own state is left behind
  have hinside : (do
      let outcome ← (pass.gathering p segment ids).attempt
      return (outcome, ← get) :
        Step (Gatherer × Journal) (Except Fault Unit × Gatherer × Journal)) (g, apart j) =
      .ok (outcome, x) x :=
    Step.bind_eq_ok.2 ⟨outcome, x, hgathering, rfl⟩
  unfold takeSegment
  rw [Step.bind_of_ok hassigned]
  simp only [hpartition]
  rw [Step.bind_of_ok hstarted, Step.bind_of_ok (Step.get_eq_ok.2 ⟨rfl, rfl⟩)]
  exact Step.bind_eq_ok.2 ⟨(outcome, x), { x.2 with sink := j.sink },
    Step.inside_eq_ok.2 ⟨x, hinside, rfl⟩, rfl⟩

theorem takeSegment_eq_ok (hpartition : pass.partition = some p)
    (h : pass.takeSegment segment ids j = .ok y k) :
    pass.bucketing.ready segment = .ok () ∧ ∃ g outcome x,
      Gatherer.start pass.settings p = .ok g ∧
      (pass.gathering p segment ids).attempt (g, apart j) = .ok outcome x ∧
      y = yieldOf outcome x ∧ k = journalAfter j x := by
  obtain ⟨⟨⟩, r, hassigned, hrest⟩ := Step.bind_eq_ok.1 h
  obtain ⟨hassign, rfl⟩ := Step.ofExcept_eq_ok.1 (internally_eq_ok.1 hassigned)
  simp only [hpartition] at hrest
  obtain ⟨g, r, hstarted, -⟩ := Step.bind_eq_ok.1 hrest
  obtain ⟨hstart, -⟩ := Step.ofExcept_eq_ok.1 (internally_eq_ok.1 hstarted)
  -- an attempt always answers, so the segment is taken as it was said to be
  have hgathering : (pass.gathering p segment ids).attempt (g, apart j) = .ok _ _ :=
    Step.attempt_eq_ok.2 ⟨rfl, rfl⟩
  have htaken := takeSegment_of_gathering hpartition hassign hstart hgathering
  rw [h] at htaken
  cases htaken
  exact ⟨hassign, g, _, _, hstart, hgathering, rfl, rfl⟩

/-- A segment leaves the facts of its hits, if it leaves no fault. -/
def Collects (pass : SearchPass) (p : Partition) (entry : SegmentId × List UInt32)
    (y : SegmentYield) : Prop :=
  y.fault = none → ∃ facts, y.facts = some facts ∧
    facts.OfHits pass.settings p (pass.hitsOf entry.1 entry.2)

theorem collects_takeSegment (hlevels : pass.settings.isDirect = false → 1 ≤ pass.settings.levels)
    (hpartition : pass.partition = some p) (h : pass.takeSegment segment ids j = .ok y k) :
    pass.Collects p (segment, ids) y := by
  intro hfault
  obtain ⟨-, g, outcome, x, hstart, hgathering, rfl, -⟩ := takeSegment_eq_ok hpartition h
  obtain ⟨hresult, rfl⟩ := Step.attempt_eq_ok.1 hgathering
  -- without a fault the gathering is a run of hits like any other
  cases outcome with
  | error fault => cases hfault
  | ok a =>
    have hrun := Step.result_eq_ok.1 hresult
    exact ⟨_, rfl, (Gatherer.forM_take_eq_ok hlevels hstart hrun).1⟩

/-! ## §3 All segments -/

/-- The facts of the segments added so far are those of their hits; there are none before the first
segment. -/
def FactsOf (s : Settings) (p : Partition) (hits : List (Doc × Bucket)) : Option Facts → Prop
  | none => hits = []
  | some facts => facts.OfHits s p hits

variable {s : Settings} {a : Unit} {before after : Option Facts × List Handoff}
  {hits hits' : List (Doc × Bucket)} {matched : List (SegmentId × List UInt32)}
  {yields : List SegmentYield} {report : Report}

/-- A segment with a fault cannot be added; another one adds its facts. -/
theorem addYield_eq_ok (hbefore : FactsOf s p hits before.1)
    (hyield : y.fault = none → ∃ facts, y.facts = some facts ∧ facts.OfHits s p hits')
    (h : addYield y before = .ok a after) :
    y.fault = none ∧ FactsOf s p (hits ++ hits') after.1 := by
  unfold addYield at h
  -- the fault of a segment comes out before anything is added
  cases hfault : y.fault with
  | some fault =>
    simp only [hfault] at h
    obtain ⟨⟨⟩, r, hfail, -⟩ := Step.bind_eq_ok.1 h
    simp at hfail
  | none =>
    obtain ⟨theirs, htheirs, hfacts⟩ := hyield hfault
    simp only [hfault, htheirs] at h
    obtain ⟨⟨mine, pairs⟩, r, hget, hrest⟩ := Step.bind_eq_ok.1 h
    obtain ⟨rfl, rfl⟩ := Step.get_eq_ok.1 hget
    refine ⟨rfl, ?_⟩
    cases mine with
    | none =>
      -- the first segment
      obtain rfl : hits = [] := hbefore
      obtain rfl := Step.set_eq_ok.1 hrest
      exact hfacts
    | some mine =>
      -- a further segment
      obtain ⟨merged, hmerge, rfl⟩ := Step.inside_eq_ok.1 hrest
      exact Facts.OfHits.merge hbefore hfacts hmerge

/-- Segments that can all be added have no faults, and their facts are those of all their hits. -/
theorem forM_addYield_eq_ok (hyields : List.Forall₂ (pass.Collects p) matched yields)
    (hbefore : FactsOf pass.settings p hits before.1)
    (h : yields.forM addYield before = .ok a after) :
    (∀ y ∈ yields, y.fault = none) ∧
      FactsOf pass.settings p (hits ++ pass.allHits matched) after.1 := by
  -- with each segment added, its hits join those that the facts are of
  induction hyields generalizing hits before with
  | nil =>
    obtain ⟨-, rfl⟩ := Step.pure_eq_ok.1 h
    exact ⟨by simp, by simpa [allHits] using hbefore⟩
  | @cons entry y matched yields hyield _ ih =>
    obtain ⟨⟨⟩, r, hadd, hrest⟩ := Step.bind_eq_ok.1 h
    obtain ⟨hfault, hnext⟩ := addYield_eq_ok hbefore hyield hadd
    obtain ⟨hfaults, hall⟩ := ih hnext hrest
    refine ⟨List.forall_mem_cons.2 ⟨hfault, hfaults⟩, ?_⟩
    rw [List.append_assoc] at hall
    exact hall

/-! ## §4 Whole searches -/

/-- A report is on segments without faults, and it has counted all their hits. -/
theorem bringTogether_eq_ok (hpartition : pass.partition = some p)
    (hyields : List.Forall₂ (pass.Collects p) matched yields)
    (h : pass.bringTogether yields j = .ok report k) :
    (∀ y ∈ yields, y.fault = none) ∧
      report.tally.CountsHits p pass.settings (pass.allHits matched) := by
  unfold bringTogether at h
  simp only [hpartition] at h
  obtain ⟨⟨facts, handedOn⟩, r, hresult, hconclude⟩ := Step.bind_eq_ok.1 h
  obtain ⟨hadded, rfl⟩ := Step.ofExcept_eq_ok.1 hresult
  obtain ⟨⟨⟩, after, hadd, hget⟩ := Step.bind_eq_ok.1 (Step.result_eq_ok.1 hadded)
  obtain ⟨rfl, -⟩ := Step.get_eq_ok.1 hget
  have hnone : FactsOf pass.settings p [] (none, ([] : List Handoff)).1 := rfl
  obtain ⟨hfaults, hall⟩ := forM_addYield_eq_ok hyields hnone hadd
  refine ⟨hfaults, ?_⟩
  rw [List.nil_append] at hall
  cases facts with
  | none =>
    -- no segment, no hit
    obtain ⟨rfl, -⟩ := Step.pure_eq_ok.1 hconclude
    rw [show pass.allHits matched = [] from hall]
    exact Tally.countsHits_nil
  | some facts =>
    -- the levels are climbed once, from the facts of all segments
    obtain ⟨outer, r', hget, hconclude⟩ := Step.bind_eq_ok.1 hconclude
    obtain ⟨rfl, rfl⟩ := Step.get_eq_ok.1 hget
    obtain ⟨inner, hconclusion, -⟩ := Step.inside_eq_ok.1 hconclude
    obtain ⟨tally, r, htally, hread⟩ := Step.bind_eq_ok.1 hconclusion
    obtain ⟨_, _, -, hpure⟩ := Step.bind_eq_ok.1 hread
    obtain ⟨rfl, -⟩ := Step.pure_eq_ok.1 hpure
    exact (Facts.OfHits.tally_eq_ok hall htally).1

/-- The segments of a search, taken one after the other. -/
def takeSegments (pass : SearchPass) (matched : List (SegmentId × List UInt32)) :
    Step Journal (List SegmentYield) :=
  matched.mapM fun (segment, ids) => pass.takeSegment segment ids

theorem collects_takeSegments
    (hlevels : pass.settings.isDirect = false → 1 ≤ pass.settings.levels)
    (hpartition : pass.partition = some p)
    (h : pass.takeSegments matched j = .ok yields k) :
    List.Forall₂ (pass.Collects p) matched yields := by
  refine (Step.mapM_eq_ok h).imp ?_
  rintro ⟨segment, ids⟩ y ⟨r, r', htaken⟩
  exact collects_takeSegment hlevels hpartition htaken

/-- A report has counted what all hits of the search reach. -/
theorem runOver_countsReached (hlevels : 1 ≤ pass.settings.levels)
    (hpartition : pass.partition = some p) (h : pass.runOver matched j = .ok report k) :
    report.tally.CountsReached p pass.settings
      (p.Roots pass.settings (pass.allHits matched)) := by
  have hjoin : ¬pass.settings.isDirect = true := by
    simp [Settings.isDirect, Nat.ne_of_gt hlevels]
  obtain ⟨yields, j₁, htake, hrest⟩ := Step.bind_eq_ok.1 h
  have hyields := collects_takeSegments (fun _ => hlevels) hpartition htake
  -- the segments were taken apart, and the report is on all of their hits
  have hcounts := (bringTogether_eq_ok hpartition hyields (internally_eq_ok.1 hrest)).2
  unfold Tally.CountsHits at hcounts
  rw [if_neg hjoin] at hcounts
  exact hcounts

end SearchPass

end Lineage.Index
