import Lineage.Partition.Listing
import Lineage.Proofs.Climbing
import Mathlib.Combinatorics.Enumerative.DoubleCounting

/-!
# Which ancestors are handed on

A climb that hands ancestors on offers its sink an ancestor of the last level for a bucket exactly
if the ancestor, when it is first visited, brings the bucket an ordinal that no ancestor visited
before has brought.  So every ordinal that a bucket reaches is brought by an ancestor handed on for
it, and an ancestor handed on answers for at least one ordinal of its own.

## Main statements

- `Ascent.run_handsOn`: what a climb offers its sink, and how this relates to what it reaches.
-/

namespace Lineage

/-! ## §1 First bringers -/

section FirstBringers

variable {brings : Doc → Ordinal → Bucket → Prop} {docs bringers : List Doc} {b : Bucket}
  {ordinals : List Ordinal}

/-- First bringers are no more than the ordinals they bring. -/
theorem length_le_of_firstBrings (hnodup : bringers.Nodup) (hordinals : ordinals.Nodup)
    (hfirst : ∀ doc ∈ bringers, FirstBrings brings docs b doc)
    (hbrought : ∀ doc ∈ docs, ∀ o, brings doc o b → o ∈ ordinals) :
    bringers.length ≤ ordinals.length := by
  classical
  rw [← List.toFinset_card_of_nodup hnodup, ← List.toFinset_card_of_nodup hordinals]
  -- every first bringer is related to an ordinal that nobody before it has brought
  refine Finset.card_le_card_of_forall_subsingleton
    (fun doc o => brings doc o b ∧ ∀ earlier ∈ visitedBefore docs doc, ¬brings earlier o b) ?_ ?_
  · intro doc hdoc
    obtain ⟨hvisited, o, hbrings, hnone⟩ := hfirst doc (List.mem_toFinset.1 hdoc)
    exact ⟨o, List.mem_toFinset.2 (hbrought doc hvisited o hbrings), hbrings, hnone⟩
  · -- of two that bring one ordinal, only the one visited before the other is first
    rintro o - doc ⟨hdoc, hbrings, hnone⟩ doc' ⟨hdoc', hbrings', hnone'⟩
    by_contra hne
    have hvisited := (hfirst doc (List.mem_toFinset.1 hdoc)).1
    have hvisited' := (hfirst doc' (List.mem_toFinset.1 hdoc')).1
    rcases visitedBefore_total hvisited hvisited' hne with hbefore | hbefore
    · exact hnone' doc hbefore hbrings
    · exact hnone doc' hbefore hbrings'

/-- Where documents bring at most one ordinal each, first bringers are no fewer. -/
theorem length_ge_of_firstBrings (hnodup : bringers.Nodup) (hordinals : ordinals.Nodup)
    (hfirst : ∀ doc, FirstBrings brings docs b doc → doc ∈ bringers)
    (hbrought : ∀ o ∈ ordinals, ∃ doc ∈ docs, brings doc o b)
    (hone : ∀ doc ∈ docs, ∀ o o', brings doc o b → brings doc o' b → o = o') :
    ordinals.length ≤ bringers.length := by
  classical
  rw [← List.toFinset_card_of_nodup hnodup, ← List.toFinset_card_of_nodup hordinals]
  -- the other way round: every ordinal is related to a document that brings it
  refine Finset.card_le_card_of_forall_subsingleton
    (fun o doc => doc ∈ docs ∧ brings doc o b) ?_ ?_
  · intro o ho
    obtain ⟨doc, hdoc, hbrings, hnone⟩ := exists_first (hbrought o (List.mem_toFinset.1 ho))
    exact ⟨doc, List.mem_toFinset.2 (hfirst doc ⟨hdoc, o, hbrings, hnone⟩), hdoc, hbrings⟩
  · rintro doc - o ⟨-, hdoc, hbrings⟩ o' ⟨-, -, hbrings'⟩
    exact hone doc hdoc o o' hbrings hbrings'

end FirstBringers

/-! ## §2 What a climb hands on -/

/-- The documents of pairs with a bucket. -/
def docsFor (pairs : List Handoff) (b : Bucket) : List Doc :=
  (pairs.filter fun pair => pair.bucket = b).map Handoff.doc

theorem mem_docsFor {pairs : List Handoff} {b : Bucket} {doc : Doc} :
    doc ∈ docsFor pairs b ↔ ⟨b, doc⟩ ∈ pairs := by
  simp only [docsFor, List.mem_map, List.mem_filter, decide_eq_true_eq]
  constructor
  · rintro ⟨pair, ⟨hpair, rfl⟩, rfl⟩
    exact hpair
  · intro hpair
    exact ⟨⟨b, doc⟩, ⟨hpair, rfl⟩, rfl⟩

theorem nodup_docsFor {pairs : List Handoff} (h : pairs.Nodup) (b : Bucket) :
    (docsFor pairs b).Nodup := by
  -- within one bucket a pair is told by its document
  refine List.Nodup.map_on ?_ (h.filter _)
  rintro ⟨b₁, d₁⟩ h₁ ⟨b₂, d₂⟩ h₂ rfl
  simp only [List.mem_filter, decide_eq_true_eq] at h₁ h₂
  rw [h₁.2, h₂.2]

namespace Ascent

/-- The pairs that a climb has handed on from the ancestors of its last level, `last + 1`, and how
they relate to the rows of the table at the top. -/
structure HandsOn (p : Partition) (roots : Bucket → Ordinal → Prop) (last : Level)
    (top : LinkTable) (pairs : List Handoff) : Prop where
  /-- An ancestor is handed on for a bucket if, at its first visit, it links the bucket to an
  ordinal that no ancestor visited earlier has linked it to. -/
  mem_pairs : ∀ b doc, ⟨b, doc⟩ ∈ pairs ↔
    FirstBrings (p.Brings (fun o b => p.Reaches (roots b) last o) last)
      (p.scan (last + 1)).docs b doc
  /-- No pair is handed on twice. -/
  nodup : pairs.Nodup
  /-- Every link at the top is one of an ancestor handed on for its bucket. -/
  covers : ∀ b o, top.Links b o → ∃ doc, ⟨b, doc⟩ ∈ pairs ∧ p.Carries (last + 1) doc o
  /-- No more ancestors are handed on for a bucket than it reaches ordinals. -/
  count_le : ∀ b, (docsFor pairs b).length ≤ (top.row b).cardinality
  /-- There are as many if no ancestor carries two ordinals. -/
  count_eq : (∀ doc ∈ (p.scan (last + 1)).docs, ∀ o o', p.Carries (last + 1) doc o →
    p.Carries (last + 1) doc o' → o = o') →
    ∀ b, (docsFor pairs b).length = (top.row b).cardinality

/-- What is handed on is settled by what the ancestors of the last level bring. -/
theorem HandsOn.of_mem_pairs {p : Partition} {roots : Bucket → Ordinal → Prop} {last : Level}
    {top : LinkTable} {pairs : List Handoff} (hwf : top.WellFormed)
    (htop : ∀ b o, top.Links b o ↔ p.Reaches (roots b) (last + 1) o) (hnodup : pairs.Nodup)
    (hmem : ∀ b doc, ⟨b, doc⟩ ∈ pairs ↔
      FirstBrings (p.Brings (fun o b => p.Reaches (roots b) last o) last)
        (p.scan (last + 1)).docs b doc) : HandsOn p roots last top pairs := by
  -- a link at the top is an ordinal that some ancestor of the last level brings
  have hlinks (b : Bucket) (o : Ordinal) : o ∈ (top.row b).toList ↔
      ∃ doc ∈ (p.scan (last + 1)).docs,
        p.Brings (fun o b => p.Reaches (roots b) last o) last doc o b := by
    rw [WordSet.mem_toList (hwf.rows b), ← Partition.reaches_succ]
    exact htop b o
  have hle (b : Bucket) : (docsFor pairs b).length ≤ (top.row b).cardinality := by
    rw [WordSet.cardinality_eq_length]
    refine length_le_of_firstBrings (nodup_docsFor hnodup b) (WordSet.toList_nodup (hwf.rows b))
      (fun doc hdoc => (hmem b doc).1 (mem_docsFor.1 hdoc)) fun doc hdoc o hbrings => ?_
    exact (hlinks b o).2 ⟨doc, hdoc, hbrings⟩
  refine ⟨hmem, hnodup, fun b o hlink => ?_, hle, fun hone b => ?_⟩
  · -- a link has a first bringer, and that one was handed on
    have hreached := (hlinks b o).1 ((WordSet.mem_toList (hwf.rows b)).2 hlink)
    obtain ⟨doc, hdoc, hbrings, hnone⟩ := exists_first hreached
    refine ⟨doc, (hmem b doc).2 ⟨hdoc, o, hbrings, hnone⟩, ?_⟩
    obtain ⟨-, -, -, hcarries⟩ := hbrings
    exact hcarries
  · -- carrying one ordinal at most, an ancestor brings one at most
    apply Nat.le_antisymm (hle b)
    rw [WordSet.cardinality_eq_length]
    refine length_ge_of_firstBrings (nodup_docsFor hnodup b) (WordSet.toList_nodup (hwf.rows b))
      (fun doc hdoc => mem_docsFor.2 ((hmem b doc).2 hdoc)) (fun o ho => (hlinks b o).1 ho) ?_
    rintro doc hdoc o o' ⟨-, -, -, hcarries⟩ ⟨-, -, -, hcarries'⟩
    exact hone doc hdoc o o' hcarries hcarries'

/-- A climb that hands ancestors on and answers has offered its sink the right pairs, and all of
them in its last transition: what comes before, down to the start, left the sink as it was. -/
theorem run_handsOn {s : Settings} {p : Partition} {last : Level} {table top : LinkTable}
    {j k : Journal} (hwf : table.WellFormed) (hlevels : s.levels = last + 1)
    (hforward : s.forwardHits = true) (hmode : s.mode = .ancestors)
    (h : run s p table j = .ok top k) :
    ∃ pairs byOrdinal below j',
      k.sink.offered.toList = j.sink.offered.toList ++ pairs ∧
      HandsOn p table.Links last top pairs ∧
      table.converse = .ok byOrdinal ∧ lowerLevels p last 0 byOrdinal j = .ok below j' ∧
      j'.sink.offered = j.sink.offered ∧ climbFrom true p 1 last below j' = .ok top k := by
  obtain ⟨byOrdinal, below, j', hconverse, hlower, hlast, hbelowWf, hbelow, hkept⟩ :=
    run_succ_eq_ok hwf hlevels h
  simp only [hforward, hmode, decide_true, Bool.and_true] at hlast
  -- the sink is as it was when the last transition begins, so all pairs are of that one
  obtain ⟨htopWf, htop, pairs, hoffered, -, hnodup, hmem⟩ := lastLevel_eq_ok hbelowWf hbelow hlast
  refine ⟨pairs, byOrdinal, below, j', hkept ▸ hoffered, ?_, hconverse, hlower, hkept, hlast⟩
  exact .of_mem_pairs htopWf htop hnodup fun b doc => by rw [hmem, and_iff_right rfl]

/-- Two levels; at the upper one an ancestor comes twice, and one comes late. -/
def dynasty : Listing where
  keys := [(⟨0, 1⟩, 0, [3]), (⟨0, 1⟩, 1, [4, 5]), (⟨0, 2⟩, 1, [5]), (⟨0, 2⟩, 2, [6]),
    (⟨0, 3⟩, 1, [4]), (⟨0, 3⟩, 2, [7, 6]), (⟨0, 4⟩, 1, [4]), (⟨0, 4⟩, 2, [7])]
  ancestors := [[⟨0, 1⟩], [⟨0, 2⟩, ⟨0, 3⟩, ⟨0, 2⟩, ⟨0, 4⟩]]
  mains := none
  refusals := []

/-- Of the ancestors at the upper level the late one is not handed on. -/
theorem run_handsOn_dynasty : ∃ top pairs,
    HandsOn dynasty.toPartition ((LinkTable.empty 4096).written 0 (·.insert 3)).Links 1 top pairs ∧
    docsFor pairs 0 = [⟨0, 2⟩, ⟨0, 3⟩] := by
  let s : Settings := { Settings.default with levels := 2, mode := .ancestors, forwardHits := true }
  have hwf : ((LinkTable.empty 4096).written 0 (·.insert 3)).WellFormed :=
    (LinkTable.wellFormed_empty _).written (((LinkTable.wellFormed_empty _).rows 0).insert 3)
  have hrun : (run s dynasty.toPartition ((LinkTable.empty 4096).written 0 (·.insert 3))).Answers
      (.start .unlimited) fun _ k => docsFor k.sink.offered.toList 0 = [⟨0, 2⟩, ⟨0, 3⟩] := by
    decide +kernel
  obtain ⟨top, k, hrun, hdocs⟩ := Step.answers_iff.1 hrun
  obtain ⟨pairs, -, -, -, hoffered, hhandsOn, -⟩ := run_handsOn hwf rfl rfl rfl hrun
  have hall : k.sink.offered.toList = pairs := hoffered
  exact ⟨top, pairs, hhandsOn, hall ▸ hdocs⟩

end Ascent

end Lineage
