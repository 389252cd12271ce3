import Lineage.Proofs.Index.Searching
import Lineage.Proofs.Index.TermReach
import Lineage.Proofs.Questions
import Lineage.Proofs.Resilience

/-!
# An index is asked for what is configured

Opening a partition over an index and checking it settles what can be asked of it.  The key columns
are those of the levels from 0 on, one more than there are levels; the filters stand in a list whose
first one belongs to level 1.  Every question of a pass is about one of these, so what was found
when the pass started cannot turn out to be missing later.

## Main statements

- `configures_of_covers`: what is within the settings is configured;
- `SearchPass.heeds_runOver`: the questions of a search;
- `asks_what_is_configured`: the questions of all passes.
-/

namespace Lineage.Index

open Step

variable {snapshot : Snapshot} {chain : JoinChain} {s : Settings} {p : Partition}

/-! ## §1 What is configured -/

/-- A question about a level of the join for which the chain names a key column, or a filter. -/
def JoinChain.Configures (chain : JoinChain) (s : Settings) : Request → Prop
  | .keys level _ => s.isDirect = false ∧ level ≤ s.levels ∧
    ∃ column, chain.keyColumns[level]? = some column
  | .scan level => s.isDirect = false ∧ 1 ≤ level ∧ level ≤ s.levels ∧
    ∃ filter, chain.ancestorFilters[level - 1]? = some filter

/-- A partition answers a question, a scan without breaking off. -/
def Answers (p : Partition) : Request → Prop
  | .keys level doc => ∃ keys, p.keys level doc = .ok keys
  | .scan level => (p.scan level).ending = .ok ()

/-- Levels that were asked for are there. -/
theorem checkLevel_of_checkLevels {n level i : Nat} (h : p.checkLevels n level = .ok ())
    (hi : i < n) : p.checkLevel (level + i) = .ok () := by
  induction n generalizing level i with
  | zero => omega
  | succ n ih =>
    obtain ⟨⟨⟩, hfirst, hrest⟩ := except_bind_eq_ok.1 h
    -- levels are checked one by one from the first, so the first level moves along
    cases i with
    | zero => exact hfirst
    | succ i =>
      have hlater := ih hrest (Nat.lt_of_succ_lt_succ hi)
      rwa [Nat.add_assoc, Nat.add_comm 1 i] at hlater

/-- A level that can be checked has a filter, and a walk over it comes to its end. -/
theorem FilterScan.exists_filter_of_checkLevel {filters : List FieldTerm}
    {strategy : ScanStrategy} {scan : FilterScan} {level : Nat}
    (hscan : ofFilters snapshot filters strategy = .ok scan)
    (h : scan.checkLevel (level + 1) = .ok ()) :
    (∃ filter, filters[level]? = some filter) ∧ (scan.visit (level + 1)).1.ending = .ok () := by
  rw [ofFilters_eq_ok hscan] at h ⊢
  cases hfilter : filters[level]? with
  | none =>
    simp only [checkLevel, FilterScan.level, List.getElem?_map, hfilter, Option.map_none] at h
    cases h
  | some filter =>
    refine ⟨⟨filter, rfl⟩, ?_⟩
    cases strategy <;> simp [visit, FilterScan.level, hfilter]

/-- What is within the settings is configured and answered, once a partition is opened and
checked. -/
theorem configures_of_covers (hvalid : s.validate = .ok ())
    (hopen : partitionOver snapshot chain s = .ok p) (hcheck : p.check s = .ok ())
    {request : Request} (h : s.Covers request) :
    chain.Configures s request ∧ Answers p request := by
  -- keys come from the numberings that were built, scans from the check of the levels
  cases request with
  | keys level doc =>
    obtain ⟨hclimbs, hlevel⟩ := h
    obtain ⟨column, n, hcolumn, -, hkeys⟩ :=
      keys_of_partitionOver (Settings.one_le_levels hvalid hclimbs) hopen hlevel
    exact ⟨⟨hclimbs, hlevel, column, hcolumn⟩, _, hkeys doc⟩
  | scan level =>
    obtain ⟨hclimbs, hpos, hlevel⟩ := h
    obtain ⟨i, rfl⟩ := Nat.exists_eq_add_of_le' hpos
    obtain ⟨columns, keys, scan, mains, -, -, hscan, -, rfl⟩ := partitionOver_eq_ok hopen
    obtain ⟨⟨⟩, hlevels, -⟩ := except_bind_eq_ok.1 hcheck
    -- levels are checked from 1 on, and their filters stand from 0 on
    have hthere := checkLevel_of_checkLevels hlevels hlevel
    rw [Nat.add_comm] at hthere
    obtain ⟨⟨filter, hfilter⟩, hending⟩ := FilterScan.exists_filter_of_checkLevel hscan hthere
    rw [List.getElem?_take_of_lt hlevel] at hfilter
    exact ⟨⟨hclimbs, hpos, hlevel, filter, hfilter⟩, hending⟩

theorem serves_of_partitionOver (hvalid : s.validate = .ok ())
    (hopen : partitionOver snapshot chain s = .ok p) (hcheck : p.check s = .ok ()) :
    p.Serves s where
  keys level doc fault hcovers hfault := by
    obtain ⟨keys, hkeys⟩ := (configures_of_covers hvalid hopen hcheck hcovers).2
    cases hkeys.symm.trans hfault
  scan level fault hcovers hfault := by
    have hending := (configures_of_covers hvalid hopen hcheck hcovers).2
    cases hending.symm.trans hfault

/-! ## §2 Searches -/

/-- Faults inside a search keep only their text. -/
theorem heeds_internally {σ α : Type} {I : σ → Prop} {may : Fault → Prop} {x : Step σ α}
    (h : Heeds I may x) : Heeds I NotConfiguration (internally x) := by
  intro t ht
  -- the new fault is one of the search, whatever the fault was before
  cases hstep : x t with
  | ok a r => exact heedsAt_of_ok (internally_eq_ok.2 hstep) (after_of_ok hstep ▸ (h t ht).after)
  | error fault r =>
    have hinternal : internally x t = .error (.search (.internal fault.fullText)) r := by
      simp only [internally, hstep]
    exact heedsAt_of_error hinternal (after_of_error hstep ▸ (h t ht).after) rfl

namespace SearchPass

variable {pass : SearchPass} {base : Journal} {g : Gatherer} {segment : SegmentId}
  {ids : List UInt32}

/-- There are links among facts only where levels are climbed. -/
def Climbs (s : Settings) (facts : Option Facts) : Prop :=
  ∀ table, facts = some (.links table) → s.isDirect = false

/-- A segment's hits are gathered apart, and ask no more than others. -/
theorem follows_gathering (segment : SegmentId) (ids : List UInt32)
    (hserves : p.Serves pass.settings) (hstart : Gatherer.start pass.settings p = .ok g)
    (j : Journal) :
    Gatherer.Follows pass.settings (apart j)
      ((pass.gathering p segment ids).after (g, apart j)) := by
  -- the segment has a journal of its own, so the gathering is followed from its start
  have hgather : Heeds (Gatherer.Follows pass.settings (apart j)) (apart j).Excuses
      (pass.gathering p segment ids) :=
    heeds_forM fun hit _ => Gatherer.heeds_take hserves hit.1 hit.2
  exact (hgather _ (Gatherer.follows_of_start hstart (.refl _ _))).after

theorem heeds_takeSegment (hserves : p.Serves pass.settings) (hpartition : pass.partition = some p)
    (hstart : Gatherer.start pass.settings p = .ok g) :
    Heeds (base.Follows pass.settings) NotConfiguration (pass.takeSegment segment ids) := by
  intro j hj
  -- a segment fails only if it cannot be started; what fails later is left in its yield
  cases hready : pass.bucketing.ready segment with
  | error fault =>
    have hassign : internally (Step.ofExcept (pass.bucketing.ready segment)) j =
        .error (.search (.internal fault.fullText)) j := by
      rw [hready]
      rfl
    exact heedsAt_of_error (bind_of_error hassign) hj rfl
  | ok assigned =>
    have hgathering := follows_gathering segment ids hserves hstart j
    have hafter : j.Follows pass.settings (journalAfter j _) := ⟨hgathering.journal.asked, rfl⟩
    exact heedsAt_of_ok
      (takeSegment_of_gathering hpartition hready hstart (attempt_eq_ok.2 ⟨rfl, rfl⟩))
      (hj.trans hafter)

/-- What is left by a segment are links only where levels are climbed. -/
theorem climbs_of_takeSegment {y : SegmentYield} {j k : Journal} (hserves : p.Serves pass.settings)
    (hpartition : pass.partition = some p) (h : pass.takeSegment segment ids j = .ok y k) :
    Climbs pass.settings y.facts := by
  obtain ⟨-, g, outcome, x, hstart, hgathering, rfl, -⟩ := takeSegment_eq_ok hpartition h
  obtain ⟨-, rfl⟩ := attempt_eq_ok.1 hgathering
  intro table hfacts
  exact (follows_gathering segment ids hserves hstart j).climbs table (Option.some.inj hfacts)

/-- Facts stay of their shape when others are added to them. -/
theorem heeds_merge (theirs : Facts) :
    Heeds (fun mine => Climbs s (some mine)) (fun _ => True) (Facts.merge theirs) := by
  apply heeds_get_bind
  intro mine hmine
  have hshape {table : LinkTable} (h : mine = .links table) : s.isDirect = false :=
    hmine table (congrArg some h)
  -- facts of one shape are merged in place, and those of two shapes are refused
  cases mine with
  | links mine =>
    cases theirs with
    | links theirs =>
      exact heedsAt_of_any.inside (fun _ _ _ _ => hshape rfl) fun _ h => h
    | documents theirs => exact heeds_fail trivial _ hmine
  | documents mine =>
    cases theirs with
    | links theirs => exact heeds_fail trivial _ hmine
    | documents theirs =>
      exact heedsAt_of_any.inside (fun _ _ _ h => nomatch h) fun _ h => h

theorem heeds_addYield {y : SegmentYield} (hy : Climbs s y.facts) :
    Heeds (fun sum : Option Facts × List Handoff => Climbs s sum.1) (fun _ => True)
      (addYield y) := by
  unfold addYield
  cases y.fault with
  | some fault =>
    intro sum hsum
    exact heedsAt_of_error rfl hsum trivial
  | none =>
    apply heeds_get_bind
    -- the first facts are taken over as they are, the others are merged into them
    rintro ⟨mine, handedOn⟩ hmine
    cases mine with
    | none => exact heedsAt_of_ok rfl hy
    | some mine =>
      cases y.facts with
      | none => exact heedsAt_of_ok rfl hmine
      | some theirs => exact (heeds_merge theirs mine hmine).inside (fun _ h => h) fun _ h => h

/-- The levels are climbed once, and only where all segments have left links. -/
theorem heeds_bringTogether {yields : List SegmentYield} (hserves : p.Serves pass.settings)
    (hpartition : pass.partition = some p) (hyields : ∀ y ∈ yields, Climbs pass.settings y.facts) :
    Heeds (base.Follows pass.settings) (fun _ => True) (pass.bringTogether yields) := by
  unfold bringTogether
  simp only [hpartition]
  intro j hj
  -- adding the yields up asks nothing; it only settles which facts are there in the end
  apply (heeds_ofExcept (fun _ _ => trivial) j hj).bind
  rintro ⟨facts, handedOn⟩ k hresult hk
  obtain ⟨hadded, rfl⟩ := ofExcept_eq_ok.1 hresult
  obtain ⟨⟨⟩, sum, hadd, hget⟩ := bind_eq_ok.1 (result_eq_ok.1 hadded)
  obtain ⟨rfl, -⟩ := get_eq_ok.1 hget
  have hadds : Heeds (fun sum : Option Facts × List Handoff => Climbs pass.settings sum.1)
      (fun _ => True) (yields.forM addYield) := heeds_forM fun y hy => heeds_addYield (hyields y hy)
  have hnone : Climbs pass.settings none := fun _ h => nomatch h
  have hclimbs : Climbs pass.settings facts := by
    have hafter := (hadds (none, []) hnone).after
    rwa [after_of_ok hadd] at hafter
  cases facts with
  | none => exact heeds_pure _ j hk
  | some facts =>
    apply heeds_get_bind _ j hk
    intro outer houter
    -- the climb starts from a journal of its own, which holds what the segments handed on
    have hconclusion (inner : Journal) : Heeds (inner.Follows pass.settings) inner.Excuses (do
        let tally ← facts.tally pass.settings p
        return (⟨tally, (← get).sink.taken.toList⟩ : Report)) :=
      (Facts.heeds_tally hserves fun table h => hclimbs table (congrArg some h)).bind fun _ =>
        heeds_get.bind fun _ => heeds_pure _
    apply HeedsAt.inside (hconclusion _ _ (.refl _ _))
    · intro inner hinner
      exact houter.trans ⟨hinner.asked, rfl⟩
    · exact fun _ _ => trivial

/-- A search over a partition asks what is within the settings, and none of its faults tells a
configuration problem. -/
theorem heeds_runOver (pass : SearchPass) (matched : List (SegmentId × List UInt32))
    (hserves : p.Serves pass.settings) (hpartition : pass.partition = some p)
    (hstart : Gatherer.start pass.settings p = .ok g) :
    Heeds (base.Follows pass.settings) NotConfiguration (pass.runOver matched) := by
  intro j hj
  have htake : Heeds (base.Follows pass.settings) NotConfiguration (pass.takeSegments matched) :=
    heeds_mapM fun entry _ => heeds_takeSegment hserves hpartition hstart
  apply (htake j hj).bind
  intro yields k hyields hk
  -- links are left by segments alone, so where there are any, levels are to be climbed
  have hclimbs (y : SegmentYield) (hy : y ∈ yields) : Climbs pass.settings y.facts := by
    obtain ⟨entry, -, r, r', htaken⟩ := exists_of_mem_right (mapM_eq_ok hyields) hy
    exact climbs_of_takeSegment hserves hpartition htaken
  exact heeds_internally (heeds_bringTogether hserves hpartition hclimbs) k hk

/-- A search over a complete partition starts and leaves the journal as it is. -/
theorem start_of_checked {opened : Except Fault Partition} (hvalid : s.validate = .ok ())
    (h : checked s opened = .ok p) (bucketing : Bucketing) (j : Journal) :
    start s opened bucketing j = .ok ⟨s, some p, bucketing⟩ j :=
  bind_of_ok (settle_of_checked hvalid h j)

end SearchPass

/-! ## §3 All passes -/

/-- From one journal to a later one, every question is about what is configured and has its answer;
where main documents are counted directly, there is no question. -/
structure JoinChain.AsksConfigured (chain : JoinChain) (s : Settings) (p : Partition)
    (before after : Journal) : Prop where
  asked : ∃ asked, after.requests.toList = before.requests.toList ++ asked ∧
    ∀ request ∈ asked, chain.Configures s request ∧ Answers p request
  direct : s.isDirect = true → after.requests = before.requests

/-- What is missing shows before a pass starts or not at all.  If a partition over an index opens
and passes the check under valid settings, then a pass over it starts, and whatever its hits are and
whatever becomes of them, it asks only for the keys of levels that have a key column and for the
scans of levels that have a filter, and gets its answers; where main documents are counted directly,
it asks nothing.  A configuration fault in such a pass is the sink's own.  The same is true of
searches, which keep their pairs and have no configuration faults at all. -/
theorem asks_what_is_configured (hvalid : s.validate = .ok ())
    (hopen : partitionOver snapshot chain s = .ok p) (hcheck : p.check s = .ok ()) :
    (∀ j, ∃ pass, Pass.start s (.ok p) j = .ok pass j ∧ pass.isDegraded = false ∧
      ∀ hits j', chain.AsksConfigured s p j' (pass.session hits j').journal ∧
        ∀ fault, .error fault ∈ (pass.session hits j').taken ∨
            (pass.session hits j').ending = .error fault →
          fault.isConfiguration = true →
            ∃ offered pair, j'.sink.verdict offered pair = some fault) ∧
    ∀ bucketing j, ∃ pass, SearchPass.start s (.ok p) bucketing j = .ok pass j ∧
      pass.isDegraded = false ∧
      ∀ matched j', chain.AsksConfigured s p j' ((pass.runOver matched).after j') ∧
        ∀ fault, (pass.runOver matched).result j' = .error fault →
          fault.isConfiguration = false := by
  -- no question within the settings can fail, and no pass asks one outside of them
  have hserves := serves_of_partitionOver hvalid hopen hcheck
  have hchecked : checked s (.ok p) = .ok p := checked_eq_ok.2 ⟨rfl, hcheck⟩
  have hasks {before after : Journal} (h : before.Follows s after) :
      chain.AsksConfigured s p before after := by
    obtain ⟨asked, hasked, hcovers⟩ := h.asked
    exact ⟨⟨asked, hasked, fun request hrequest =>
      configures_of_covers hvalid hopen hcheck (hcovers request hrequest)⟩,
      h.requests_of_isDirect⟩
  refine ⟨fun j => ?_, fun bucketing j => ?_⟩
  · obtain ⟨g, hg, hstart⟩ := Pass.start_of_checked hvalid hchecked j
    refine ⟨_, hstart, rfl, fun hits j' => ?_⟩
    have hsession := Pass.session_follows hserves hits (Gatherer.follows_of_start hg (.refl s j'))
    refine ⟨hasks hsession.journal, fun fault hfault hconfiguration => ?_⟩
    -- a fault of a pass is not one of the configuration, unless the sink has given it
    rcases hfault.elim (hsession.taken fault) (hsession.ending fault) with hother | hrefused
    · cases hother.symm.trans hconfiguration
    · exact hrefused
  · obtain ⟨g, hg⟩ := Gatherer.exists_start_of_check hcheck
    refine ⟨_, SearchPass.start_of_checked hvalid hchecked bucketing j, rfl, fun matched j' => ?_⟩
    have hrun := SearchPass.heeds_runOver ⟨s, some p, bucketing⟩ matched hserves rfl hg j'
      (.refl s j')
    exact ⟨hasks hrun.after, hrun.faults⟩

/-- A child and, in another segment, the parent that it hangs under. -/
def nursery : Snapshot where
  schema := [⟨"family", true, true, true⟩, ⟨"kind", true, true, false⟩]
  segments :=
    [#[⟨[("family", .text "a"), ("kind", .text "child")], true⟩],
      #[⟨[("family", .text "a"), ("kind", .text "parent")], true⟩]]

def parents : JoinChain := ⟨["family", "family"], [⟨"kind", "parent"⟩], none⟩

/-- The child's keys are asked for at level 0; then the parents are scanned, and the keys of the one
that is met are asked for at both levels. -/
theorem asks_what_is_configured_nursery : ∃ (p : Partition) (pass : Pass) (k : Journal),
    partitionOver nursery parents .default = .ok p ∧ p.check .default = .ok () ∧
    Pass.start .default (.ok p) (.start .unlimited) = .ok pass k ∧
    (pass.session [(⟨0, 0⟩, 0)] k).journal.requests.toList =
      [.keys 0 ⟨0, 0⟩, .scan 1, .keys 0 ⟨1, 0⟩, .keys 1 ⟨1, 0⟩] ∧
    parents.AsksConfigured .default p k (pass.session [(⟨0, 0⟩, 0)] k).journal := by
  have hrun : (ofExcept (partitionOver nursery parents .default)).Answers () fun p _ =>
      p.check .default = .ok () ∧
      (Pass.start .default (.ok p)).Answers (.start .unlimited) fun pass k =>
        (pass.session [(⟨0, 0⟩, 0)] k).journal.requests.toList =
          [.keys 0 ⟨0, 0⟩, .scan 1, .keys 0 ⟨1, 0⟩, .keys 1 ⟨1, 0⟩] := by
    decide +kernel
  obtain ⟨p, ⟨⟩, hopened, hcheck, hrest⟩ := answers_iff.1 hrun
  obtain ⟨hopen, -⟩ := ofExcept_eq_ok.1 hopened
  obtain ⟨pass, k, hstart, hrequests⟩ := answers_iff.1 hrest
  obtain ⟨started, hstarted, -, hasks⟩ :=
    (asks_what_is_configured rfl hopen hcheck).1 (.start .unlimited)
  cases hstart.symm.trans hstarted
  exact ⟨p, _, _, hopen, hcheck, hstart, hrequests, (hasks _ _).1⟩

end Lineage.Index
