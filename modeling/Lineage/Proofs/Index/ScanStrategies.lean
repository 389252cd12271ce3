import Lineage.Index.Opening
import Lineage.Proofs.Index.Scanning

/-!
# Both strategies find the same

Under the caching strategy the documents of a level are put into word sets when it is first walked
over, and later walks read them back.  Under the other strategy every walk looks at the documents
anew.  Nothing that is done with the documents tells the two apart: whatever levels were walked over
before, and wherever those walks broke off, a walk meets the same documents in the same order.

## Main statements

- `FilterScan.Keeps`: what a scan has kept, as an invariant of its walks;
- `FilterScan.cached_alike_scanning`: walks under the two strategies;
- `partitionOver_strategy`: partitions under the two strategies.
-/

namespace Lineage.Index

namespace FilterScan

variable {s : Snapshot} {scan : FilterScan} {wanted : List (Stored → Bool)} {σ : Type}

/-! ## §1 Walks one after the other -/

/-- The scan as it is after walks over some levels. -/
def after (scan : FilterScan) (levels : List Level) : FilterScan :=
  levels.foldl (fun scan level => (scan.visit level).2) scan

/-- A call of a scan: a walk over the ancestors of a level that does something with each. -/
structure Call (σ : Type) where
  level : Level
  visit : Doc → Step σ Unit

/-- Make calls one after the other, whatever comes of them: what came of each, and the state it
left. -/
def callEach (scan : FilterScan) : List (Call σ) → σ → List (Except Fault Unit × σ)
  | [], _ => []
  | call :: calls, x =>
    let walk := (scan.visit call.level).1.forEach call.visit
    (walk.result x, walk.after x) :: (scan.visit call.level).2.callEach calls (walk.after x)

/-- The same calls where a level always has the same documents. -/
def callOn (visits : Level → Visits) : List (Call σ) → σ → List (Except Fault Unit × σ)
  | [], _ => []
  | call :: calls, x =>
    let walk := (visits call.level).forEach call.visit
    (walk.result x, walk.after x) :: callOn visits calls (walk.after x)

/-! ## §2 What a scan keeps -/

/-- The ancestors of a level, looked up anew. -/
def ancestors (s : Snapshot) (wanted : List (Stored → Bool)) (level : Level) : Visits :=
  if level = 0 then ⟨[], .error (.configuration (.noAncestorFilter 0))⟩
  else (wanted[level - 1]?).elim ⟨[], .error (.configuration (.noAncestorFilter level))⟩
    fun wanted => ⟨s.liveDocs wanted, .ok ()⟩

/-- A scan has the filters it started with, and what it has kept for one is what that selects. -/
structure Keeps (scan : FilterScan) (s : Snapshot) (wanted : List (Stored → Bool)) : Prop where
  snapshot : scan.snapshot = s
  levels : scan.levels.map Prod.fst = wanted
  kept : ∀ w sets, (w, some sets) ∈ scan.levels → sets = s.liveSets w

theorem keeps_of_ofFilters {filters : List FieldTerm} {strategy : ScanStrategy}
    (h : ofFilters s filters strategy = .ok scan) :
    scan.Keeps s (filters.map fun filter d => d.holds filter) := by
  rw [ofFilters_eq_ok h]
  refine ⟨rfl, ?_, fun w sets hkept => ?_⟩
  · rw [List.map_map]
    rfl
  · obtain ⟨filter, -, hnothing⟩ := List.mem_map.1 hkept
    cases hnothing

/-- Keeping what a filter selects keeps everything else as it was. -/
theorem Keeps.keep (h : scan.Keeps s wanted) {i : Nat} {w : Stored → Bool}
    {kept : Option (List WordSet)} (hlevel : scan.levels[i]? = some (w, kept))
    (strategy : ScanStrategy) :
    Keeps ⟨scan.snapshot, strategy, scan.levels.set i (w, some (s.liveSets w))⟩ s wanted where
  snapshot := h.snapshot
  levels := by
    -- the filter at the place stays the same, so the list of filters does too
    obtain ⟨hi, hentry⟩ := List.getElem?_eq_some_iff.1 hlevel
    have hbound : i < (scan.levels.map Prod.fst).length := by rwa [List.length_map]
    have hw : w = (scan.levels.map Prod.fst)[i] := by simp [hentry]
    rw [List.map_set, hw, List.set_getElem_self, h.levels]
  kept w' sets hkept := by
    rcases List.mem_or_eq_of_mem_set hkept with hold | hnew
    · exact h.kept w' sets hold
    · cases hnew
      rfl

/-- One walk meets the ancestors of its level and keeps nothing else. -/
theorem Keeps.visit (hs : s.Addressable) (h : scan.Keeps s wanted) (level : Level) :
    (scan.visit level).1 = ancestors s wanted level ∧ (scan.visit level).2.Keeps s wanted := by
  unfold FilterScan.visit FilterScan.level
  -- level 0 has no filter; every other has its filter one place further down
  cases level with
  | zero => exact ⟨rfl, h⟩
  | succ i =>
    have hancestors : wanted[i]? = (scan.levels[i]?).map Prod.fst := by
      rw [← h.levels, List.getElem?_map]
    cases hlevel : scan.levels[i]? with
    | none => simp [ancestors, hancestors, hlevel, h]
    | some entry =>
      obtain ⟨w, kept⟩ := entry
      -- a plain scan looks the documents up, a cached one reads them back from its sets
      cases scan.strategy with
      | scan => simp [ancestors, hancestors, hlevel, h, h.snapshot]
      | cached =>
        -- whether they were kept before or not, the sets are those of the live documents
        have hsets : kept.getD (scan.snapshot.liveSets w) = s.liveSets w := by
          cases kept with
          | none => rw [Option.getD_none, h.snapshot]
          | some sets => exact h.kept w sets (List.mem_of_getElem? hlevel)
        simp [ancestors, hancestors, hlevel, hsets, Snapshot.docsOfSets_liveSets hs,
          h.keep hlevel .cached]

theorem Keeps.after (hs : s.Addressable) (h : scan.Keeps s wanted) (levels : List Level) :
    (scan.after levels).Keeps s wanted := by
  -- the scan changes from walk to walk, and what it keeps is right after each of them
  induction levels generalizing scan with
  | nil => exact h
  | cons level levels ih => exact ih (h.visit hs level).2

/-- Calls do not notice what is kept between them. -/
theorem Keeps.callEach_eq (hs : s.Addressable) (h : scan.Keeps s wanted) (calls : List (Call σ))
    (x : σ) : scan.callEach calls x = callOn (ancestors s wanted) calls x := by
  -- each call may leave another scan and another state, so both vary
  induction calls generalizing scan x with
  | nil => rfl
  | cons call calls ih =>
    obtain ⟨hvisits, hkeeps⟩ := h.visit hs call.level
    rw [callEach, callOn, hvisits, ih hkeeps]

/-! ## §3 Both strategies -/

/-- A walk meets the live documents that a filter selects, segment by segment and ascending inside a
segment, and comes to its end. -/
structure Finds (visits : Visits) (s : Snapshot) (filter : FieldTerm) : Prop where
  ending : visits.ending = .ok ()
  ordered : visits.docs.Pairwise ComesBefore
  mem_docs : ∀ doc, doc ∈ visits.docs ↔
    ∃ d, s.stored? doc = some d ∧ d.isLive = true ∧ d.holds filter = true

theorem finds_ancestors (hs : s.Addressable) {filters : List FieldTerm} {level : Level}
    {filter : FieldTerm} (hfilter : filters[level]? = some filter) :
    Finds (ancestors s (filters.map fun filter d => d.holds filter) (level + 1)) s filter := by
  have hancestors : ancestors s (filters.map fun filter d => d.holds filter) (level + 1) =
      ⟨s.liveDocs fun d => d.holds filter, .ok ()⟩ := by
    simp [ancestors, hfilter]
  rw [hancestors]
  exact ⟨rfl, Snapshot.liveDocs_pairwise hs, fun doc => Snapshot.mem_liveDocs hs⟩

theorem ancestors_of_missing {level : Level} (h : level = 0 ∨ wanted.length < level) :
    ancestors s wanted level = ⟨[], .error (.configuration (.noAncestorFilter level))⟩ := by
  unfold ancestors
  -- at level 0 the fault is stated, above the last filter the lookup gives it
  split
  case isTrue hzero => rw [hzero]
  case isFalse hpos =>
    have hmissing : wanted.length ≤ level - 1 := Nat.le_sub_one_of_lt (h.resolve_left hpos)
    rw [List.getElem?_eq_none hmissing, Option.elim_none]

/-- Cached and plain scans cannot be told apart.  They are refused alike.  After any walks of either
over any levels, a walk over a level meets the same documents; it is a fault to walk over a level
without a filter, and otherwise the documents are those that the filter finds.  Whatever is done
with them, and wherever that fails, all calls come to the same, and every call meets the documents
that it would have met as the first one. -/
theorem cached_alike_scanning (s : Snapshot) (hs : s.Addressable) (filters : List FieldTerm) :
    (∀ fault, ofFilters s filters .cached = .error fault ↔
      ofFilters s filters .scan = .error fault) ∧
    ∀ cached scanning, ofFilters s filters .cached = .ok cached →
      ofFilters s filters .scan = .ok scanning →
      (∀ history history' level, ((cached.after history).visit level).1 =
        ((scanning.after history').visit level).1) ∧
      (∀ level, level = 0 ∨ filters.length < level → (scanning.visit level).1 =
        ⟨[], .error (.configuration (.noAncestorFilter level))⟩) ∧
      (∀ level filter, filters[level]? = some filter →
        Finds (scanning.visit (level + 1)).1 s filter) ∧
      ∀ (σ : Type) (calls : List (Call σ)) (x : σ),
        cached.callEach calls x = scanning.callEach calls x ∧
        cached.callEach calls x = callOn (fun level => (cached.visit level).1) calls x := by
  -- a scan is refused for its filters alone, before the strategy comes in
  have hrefused (strategy : ScanStrategy) (fault : Fault) :
      ofFilters s filters strategy = .error fault ↔ filters.mapM s.select = .error fault := by
    unfold ofFilters
    rw [Step.except_bind_eq_error]
    exact or_iff_left fun ⟨_, _, hpure⟩ => nomatch hpure
  refine ⟨fun fault => by rw [hrefused, hrefused], fun cached scanning hcached hscanning => ?_⟩
  have hkeeps := keeps_of_ofFilters hcached
  have hkeeps' := keeps_of_ofFilters hscanning
  have hvisits (level : Level) : (scanning.visit level).1 = ancestors s _ level :=
    (hkeeps'.visit hs level).1
  -- each part compares a walk with the ancestors that are looked up anew
  refine ⟨fun history history' level => ?_, fun level hmissing => ?_,
    fun level filter hfilter => ?_, fun σ calls x => ⟨?_, ?_⟩⟩
  · rw [((hkeeps.after hs history).visit hs level).1,
      ((hkeeps'.after hs history').visit hs level).1]
  · rw [hvisits, ancestors_of_missing (by rwa [List.length_map])]
  · rw [hvisits]
    exact finds_ancestors hs hfilter
  · rw [hkeeps.callEach_eq hs, hkeeps'.callEach_eq hs]
  · rw [hkeeps.callEach_eq hs]
    congr 1
    funext level
    exact (hkeeps.visit hs level).1.symm

/-- Three segments: one has a deleted parent between two live ones, one has no parent at all. -/
def pruned : Snapshot where
  schema := [⟨"type", true, true, false⟩]
  segments :=
    [#[⟨[("type", .text "parent")], true⟩, ⟨[("type", .text "parent")], false⟩,
        ⟨[("type", .text "parent")], true⟩],
      #[⟨[("type", .text "child")], true⟩], #[⟨[("type", .text "parent")], true⟩]]

/-- Note down documents, and fail at one of them. -/
def noteUpTo (last : Doc) (doc : Doc) : Step (List Doc) Unit := do
  modify fun noted => noted ++ [doc]
  if doc = last then Step.fail (.ofCause .sinkFull)

theorem cached_alike_scanning_pruned : ∃ cached scanning,
    ofFilters pruned [⟨"type", "parent"⟩] .cached = .ok cached ∧
    ofFilters pruned [⟨"type", "parent"⟩] .scan = .ok scanning ∧
    ((cached.after [1, 0, 1]).visit 1).1 = (scanning.visit 1).1 ∧
    (scanning.visit 2).1 = ⟨[], .error (.configuration (.noAncestorFilter 2))⟩ ∧
    Finds (scanning.visit 1).1 pruned ⟨"type", "parent"⟩ ∧
    cached.callEach [⟨1, noteUpTo ⟨0, 2⟩⟩, ⟨1, noteUpTo ⟨3, 0⟩⟩] [] =
      scanning.callEach [⟨1, noteUpTo ⟨0, 2⟩⟩, ⟨1, noteUpTo ⟨3, 0⟩⟩] [] := by
  have haddressable : pruned.Addressable := ⟨by decide, by decide⟩
  obtain ⟨hvisits, hmissing, hfinds, hcalls⟩ :=
    (cached_alike_scanning pruned haddressable [⟨"type", "parent"⟩]).2 _ _ rfl rfl
  exact ⟨_, _, rfl, rfl, hvisits [1, 0, 1] [] 1, hmissing 2 (.inr (by decide)),
    hfinds 0 _ rfl, (hcalls _ _ _).1⟩

end FilterScan

/-! ## §4 Partitions -/

/-- The partition that is opened over a snapshot does not depend on the strategy. -/
theorem partitionOver_strategy {snapshot : Snapshot} (hs : snapshot.Addressable)
    (chain : JoinChain) (s : Settings) (strategy : ScanStrategy) :
    partitionOver snapshot chain { s with strategy } = partitionOver snapshot chain s := by
  have hcolumns : chain.columnsFor { s with strategy } = chain.columnsFor s := rfl
  have hmains : chain.mainsFor { s with strategy } snapshot = chain.mainsFor s snapshot := rfl
  unfold partitionOver
  rw [hcolumns, hmains]
  refine bind_congr fun columns => bind_congr fun keys => ?_
  -- the strategy is read where the scan is made, so it only matters from there on
  cases hselect : (chain.ancestorFilters.take s.levels).mapM snapshot.select with
  | error fault => simp only [FilterScan.ofFilters, hselect]; rfl
  | ok selected =>
    have hopened (strategy : ScanStrategy) : FilterScan.ofFilters snapshot
        (chain.ancestorFilters.take s.levels) strategy =
          .ok ⟨snapshot, strategy, selected.map fun wanted => (wanted, none)⟩ := by
      rw [FilterScan.ofFilters, hselect]
      rfl
    have hvisits (level : Level) :=
      ((FilterScan.keeps_of_ofFilters (hopened strategy)).visit hs level).1.trans
        ((FilterScan.keeps_of_ofFilters (hopened s.strategy)).visit hs level).1.symm
    simp only [hopened]
    cases chain.mainsFor s snapshot with
    | error fault => rfl
    | ok mains =>
      -- the levels that can be checked are the same, and so is every first walk
      exact congrArg (fun scan => Except.ok (⟨keys.keys, _, scan, _⟩ : Partition)) (funext hvisits)

end Lineage.Index
