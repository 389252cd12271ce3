import Lineage.Proofs.Index.Searching

/-!
# Reports are all or nothing

A fault that comes up while the hits of a segment are gathered does not end the search; it is kept
with what was gathered before it, and no further hit of the segment is looked at.  It comes out when
the segments are brought together, in whatever order they come.  A report therefore says that every
hit of every segment was taken, and it has counted them all.

## Main statements

- `SearchPass.leaves_takeSegment`: what is left by a segment, with and without a fault;
- `SearchPass.takeSegment_append_of_fault`: nothing changes after a fault;
- `SearchPass.report_all_or_nothing`: segments with faults give no report, and a report is on all
  hits.
-/

namespace Lineage.Index.SearchPass

variable {pass : SearchPass} {p : Partition} {segment : SegmentId} {ids : List UInt32}
  {y : SegmentYield} {j k : Journal} {matched matched' : List (SegmentId × List UInt32)}
  {taken yields : List SegmentYield}

/-! ## §1 How a segment ends -/

/-- Every hit of a segment was taken, once for each of its buckets, and their facts and pairs are
left. -/
inductive TookAll (pass : SearchPass) (p : Partition) :
    SegmentId × List UInt32 → SegmentYield → Prop where
  | intro {segment : SegmentId} {ids : List UInt32} {g g' : Gatherer} {j j' : Journal}
      (hstart : Gatherer.start pass.settings p = .ok g)
      (hall : pass.gather p (pass.hitsOf segment ids) (g, apart j) = .ok () (g', j')) :
      TookAll pass p (segment, ids) ⟨some g'.facts, j'.sink.taken.toList, none⟩

/-- After some hits of a segment were taken, taking one failed.  What the failure left is left by
the segment, and the hits that follow have no part in it. -/
inductive BrokeOff (pass : SearchPass) (p : Partition) :
    SegmentId × List UInt32 → SegmentYield → Prop where
  | intro {segment : SegmentId} {ids : List UInt32} {before after : List (Doc × Bucket)}
      {doc : Doc} {b : Bucket} {g g₁ g' : Gatherer} {j j₁ j' : Journal} {fault : Fault}
      (hstart : Gatherer.start pass.settings p = .ok g)
      (hhits : pass.hitsOf segment ids = before ++ (doc, b) :: after)
      (hbefore : pass.gather p before (g, apart j) = .ok () (g₁, j₁))
      (hfails : Gatherer.take pass.settings p doc b (g₁, j₁) = .error fault (g', j')) :
      BrokeOff pass p (segment, ids) ⟨some g'.facts, j'.sink.taken.toList, some fault⟩

/-- A segment that is taken took all its hits or broke off at one of them. -/
theorem leaves_takeSegment (hpartition : pass.partition = some p)
    (h : pass.takeSegment segment ids j = .ok y k) :
    pass.TookAll p (segment, ids) y ∨ pass.BrokeOff p (segment, ids) y := by
  obtain ⟨-, g, outcome, ⟨g', j'⟩, hstart, hgathering, rfl, -⟩ := takeSegment_eq_ok hpartition h
  obtain ⟨hresult, hafter⟩ := Step.attempt_eq_ok.1 hgathering
  -- the fault of a run is that of its first failing hit, with a run before it that went well
  cases outcome with
  | ok a =>
    have hrun := Step.result_eq_ok.1 hresult
    rw [hafter] at hrun
    exact .inl (.intro hstart hrun)
  | error fault =>
    have hrun := Step.result_eq_error.1 hresult
    rw [hafter] at hrun
    obtain ⟨before, ⟨doc, b⟩, after, ⟨g₁, j₁⟩, hhits, hbefore, hfails⟩ := Step.forM_eq_error hrun
    exact .inr (.intro hstart hhits hbefore hfails)

/-- Without faults, every segment took all its hits. -/
theorem tookAll_of_faults_eq_none
    (h : List.Forall₂ (fun entry y => pass.TookAll p entry y ∨ pass.BrokeOff p entry y) matched
      taken) (hfaults : ∀ y ∈ taken, y.fault = none) :
    List.Forall₂ (pass.TookAll p) matched taken := by
  -- the segments and what they left are gone through side by side
  induction h with
  | nil => exact .nil
  | cons hends _ ih =>
    obtain ⟨hfault, hrest⟩ := List.forall_mem_cons.1 hfaults
    refine .cons ?_ (ih hrest)
    rcases hends with hall | hbroke
    · exact hall
    · cases hbroke
      cases hfault

/-- Once a segment has left a fault, more documents would change nothing about what it leaves. -/
theorem takeSegment_append_of_fault (hpartition : pass.partition = some p)
    (h : pass.takeSegment segment ids j = .ok y k) (hfault : y.fault ≠ none)
    (more : List UInt32) : pass.takeSegment segment (ids ++ more) j = .ok y k := by
  obtain ⟨hassign, g, outcome, x, hstart, hgathering, rfl, rfl⟩ := takeSegment_eq_ok hpartition h
  apply takeSegment_of_gathering hpartition hassign hstart
  cases outcome with
  | ok a => exact absurd rfl hfault
  | error fault =>
    obtain ⟨hresult, hafter⟩ := Step.attempt_eq_ok.1 hgathering
    have hrun := Step.result_eq_error.1 hresult
    -- the hits of further documents come behind those that the run broke off at
    have hmore : pass.gathering p segment (ids ++ more) (g, apart j) = .error fault x := by
      unfold gathering hitsOf
      rw [List.flatMap_append, ← hafter]
      exact Step.forM_append_of_error _ hrun
    exact Step.attempt_eq_ok.2 ⟨Step.result_of_error hmore, Step.after_of_error hmore⟩

/-! ## §2 Reports -/

/-- The segments may be brought together in any order. -/
theorem exists_collects_perm (hyields : List.Forall₂ (pass.Collects p) matched taken)
    (horder : yields.Perm taken) :
    ∃ matched', List.Forall₂ (pass.Collects p) matched' yields ∧
      ∀ hit, hit ∈ pass.allHits matched' ↔ hit ∈ pass.allHits matched := by
  -- the matches are put in the order of the yields; as hits they are the same
  obtain ⟨matched', hall, hperm⟩ := List.perm_comp_forall₂ horder hyields.flip
  exact ⟨matched', hall.flip, fun hit => (hperm.flatMap_right _).mem_iff⟩

/-- Reports are all or nothing.  The hits of a segment are its matched documents, once for each
bucket they are assigned to.  Of a search that is not degraded, each segment took all its hits or
broke off at one of them and left a fault.  If a segment left a fault, there is no report, whatever
the order in which the segments are brought together; if there is a report, every segment took all
its hits, and the numbers are those of all of them.  After its fault a segment does not change. -/
theorem report_all_or_nothing {s : Settings} {opened : Except Fault Partition}
    {bucketing : Bucketing} {j₀ j₁ : Journal}
    (hstart : start s opened bucketing j₀ = .ok pass j₁) (hrunning : pass.partition = some p)
    (htaken : pass.takeSegments matched j = .ok taken k) (horder : yields.Perm taken) :
    (∀ segment ids hit b, (hit, b) ∈ pass.hitsOf segment ids ↔
      hit.segment = segment ∧ hit.id ∈ ids ∧ b ∈ bucketing.buckets hit) ∧
    List.Forall₂ (fun entry y => pass.TookAll p entry y ∨ pass.BrokeOff p entry y) matched taken ∧
    (∀ y ∈ taken, y.fault ≠ none → ∀ j', ∃ fault k',
      pass.bringTogether yields j' = .error fault k') ∧
    (∀ j' report k', pass.bringTogether yields j' = .ok report k' →
      List.Forall₂ (pass.TookAll p) matched taken ∧
      report.tally.CountsHits p s (pass.allHits matched) ∧
      ∀ hit b, (hit, b) ∈ pass.allHits matched ↔ bucketing.Assigns matched hit b) ∧
    ∀ segment ids j y k, pass.takeSegment segment ids j = .ok y k → y.fault ≠ none →
      ∀ more, pass.takeSegment segment (ids ++ more) j = .ok y k := by
  obtain ⟨rfl, rfl, hvalid, -⟩ := start_eq_ok hstart hrunning
  -- each segment was taken apart from the others, so each ends in one of the two ways
  have hends : List.Forall₂ (fun entry y => pass.TookAll p entry y ∨ pass.BrokeOff p entry y)
      matched taken := by
    refine (Step.mapM_eq_ok htaken).imp ?_
    rintro ⟨segment, ids⟩ y ⟨r, r', hsegment⟩
    exact leaves_takeSegment hrunning hsegment
  -- the matches in the order in which their segments are brought together
  obtain ⟨matched', hyields, hsame⟩ := exists_collects_perm
    (collects_takeSegments (pass.settings.one_le_levels hvalid) hrunning htaken) horder
  refine ⟨fun _ _ _ _ => mem_hitsOf, hends, fun y hy hfault j' => ?_,
    fun j' report k' hreport => ?_,
    fun segment ids j y k h hfault => takeSegment_append_of_fault hrunning h hfault⟩
  · -- a report would say that there was no fault
    cases hbrought : pass.bringTogether yields j' with
    | error fault k' => exact ⟨fault, k', rfl⟩
    | ok report k' =>
      have hfaults := (bringTogether_eq_ok hrunning hyields hbrought).1
      exact absurd (hfaults y (horder.mem_iff.2 hy)) hfault
  · obtain ⟨hfaults, hcounts⟩ := bringTogether_eq_ok hrunning hyields hreport
    exact ⟨tookAll_of_faults_eq_none hends fun y hy => hfaults y (horder.mem_iff.2 hy),
      hcounts.congr hsame, fun _ _ => mem_allHits⟩

/-- Two hits in two segments; the keys of a further one cannot be read. -/
def torn : Listing where
  keys := [(⟨0, 0⟩, 0, [1]), (⟨1, 0⟩, 0, [1]), (⟨1, 5⟩, 0, [1]), (⟨1, 5⟩, 1, [4])]
  ancestors := [[⟨1, 5⟩]]
  mains := none
  refusals := [(.keys 0 ⟨1, 1⟩, ⟨.stated "keys of the document are unreadable", []⟩)]

/-- One hit counts for two buckets, the others for one of them. -/
def tornBuckets : Bucketing := .listed [(⟨0, 0⟩, [7, 8]), (⟨1, 0⟩, [8]), (⟨1, 1⟩, [8])] []

private theorem exists_taken (matched : List (SegmentId × List UInt32))
    (P : SearchPass → List SegmentYield → Journal → Prop)
    (h : (start .default (.ok torn.toPartition) tornBuckets).Answers (.start .unlimited)
      fun pass j => pass.partition.isSome = true ∧
        (pass.takeSegments matched).Answers j fun taken k => P pass taken k) :
    ∃ (pass : SearchPass) (j k : Journal) (taken : List SegmentYield),
      start .default (.ok torn.toPartition) tornBuckets (.start .unlimited) = .ok pass j ∧
      pass.partition = some torn.toPartition ∧ pass.takeSegments matched j = .ok taken k ∧
      P pass taken k := by
  obtain ⟨pass, j, hstart, hrunning, hrest⟩ := Step.answers_iff.1 h
  obtain ⟨taken, k, htaken, hP⟩ := Step.answers_iff.1 hrest
  obtain ⟨p, hp⟩ := Option.isSome_iff_exists.1 hrunning
  obtain ⟨-, -, -, hopened⟩ := start_eq_ok hstart hp
  obtain rfl : torn.toPartition = p := Except.ok.inj hopened
  exact ⟨pass, j, k, taken, hstart, hp, htaken, hP⟩

/-- If the document that cannot be read is left out, there is a report, and it has counted the one
ancestor for both buckets; with that document there is none, although the segments come the other
way round. -/
theorem report_all_or_nothing_torn :
    (∃ (pass : SearchPass) (taken : List SegmentYield) (report : Report) (j k : Journal),
      pass.bringTogether taken j = .ok report k ∧
        report.tally.get 7 = 1 ∧ report.tally.get 8 = 1 ∧
        report.tally.CountsHits torn.toPartition .default (pass.allHits [(0, [0]), (1, [0])]) ∧
        (⟨0, 0⟩, 8) ∈ pass.allHits [(0, [0]), (1, [0])]) ∧
    ∃ (pass : SearchPass) (j k : Journal) (taken : List SegmentYield),
      pass.takeSegments [(0, [0]), (1, [0, 1, 0])] j = .ok taken k ∧
      ∀ j', ∃ fault k', pass.bringTogether taken.reverse j' = .error fault k' := by
  constructor
  · obtain ⟨pass, j, k, taken, hstart, hrunning, htaken, hreport⟩ :=
      exists_taken [(0, [0]), (1, [0])]
        (fun pass taken k => (pass.bringTogether taken).Answers k fun report _ =>
          report.tally.get 7 = 1 ∧ report.tally.get 8 = 1) (by decide +kernel)
    obtain ⟨report, k', hbrought, hseven, height⟩ := Step.answers_iff.1 hreport
    obtain ⟨-, -, -, hcounts, -⟩ := report_all_or_nothing hstart hrunning htaken (.refl taken)
    obtain ⟨-, htally, hhits⟩ := hcounts k report k' hbrought
    exact ⟨pass, taken, report, k, k', hbrought, hseven, height, htally,
      (hhits _ _).2 ⟨⟨[0], by decide, by decide⟩, by decide⟩⟩
  · obtain ⟨pass, j, k, taken, hstart, hrunning, htaken, hbroken⟩ :=
      exists_taken [(0, [0]), (1, [0, 1, 0])]
        (fun _ taken _ => ∃ y ∈ taken, y.fault ≠ none) (by decide +kernel)
    obtain ⟨y, hy, hfault⟩ := hbroken
    obtain ⟨-, -, hnone, -, -⟩ :=
      report_all_or_nothing hstart hrunning htaken (List.reverse_perm taken)
    exact ⟨pass, j, k, taken, htaken, hnone y hy hfault⟩

end Lineage.Index.SearchPass
