import Lineage.Pass
import Lineage.Partition.Listing
import Lineage.Proofs.Climbing
import Lineage.Proofs.Gathering

/-!
# A pass counts the join

Gathering, climbing and counting together.  A pass over any hits, in any order and with any
repeats, returns for every bucket the number of distinct ordinals that the hits of the bucket
reach at the last level.

## Main statements

- `Facts.tally_links_eq_ok`: the numbers that follow from a table of level-0 links;
- `settle_of_valid`, `settle_found`: what a pass runs over, and when it is degraded;
- `Pass.close_counts_reached`: the numbers that a whole pass returns.
-/

namespace Lineage

/-! ## §1 From level-0 links to numbers -/

/-- The ordinals that a bucket's level-0 ordinals reach at the last level. -/
def Partition.reachedSet (p : Partition) (s : Settings) (roots : Ordinal → Prop) : Set Ordinal :=
  {o | p.Reaches roots s.levels o}

/-- There are only so many ordinals, so what is reached can be counted. -/
theorem Partition.finite_reachedSet (p : Partition) (s : Settings) (roots : Ordinal → Prop) :
    (p.reachedSet s roots).Finite := by
  have hfinite : Finite Ordinal :=
    Finite.of_injective UInt32.toFin fun _ _ => UInt32.toFin_inj.1
  exact Set.toFinite _

/-- Numbers by bucket are those of the ordinals that the buckets reach: the number of each bucket
is right, and there is an entry exactly for those that reach any. -/
def Tally.CountsReached (t : Tally Bucket) (p : Partition) (s : Settings)
    (roots : Bucket → Ordinal → Prop) : Prop :=
  ∀ b, t.get b = (p.reachedSet s (roots b)).ncard ∧
    (b ∈ t.entries ↔ 0 < (p.reachedSet s (roots b)).ncard)

/-- Without level-0 ordinals nothing is reached, and there is nothing to count. -/
theorem Tally.countsReached_empty {s : Settings} {p : Partition}
    {roots : Bucket → Ordinal → Prop} (h : ∀ b o, ¬roots b o) :
    Tally.empty.CountsReached p s roots := by
  intro b
  have hnone : p.reachedSet s (roots b) = ∅ :=
    Set.eq_empty_of_forall_notMem fun _ => Partition.not_reaches_of_no_root (h b)
  simp [hnone, Tally.empty, Tally.get]

/-- The numbers that follow from a table of level-0 links are those of the ordinals reached. -/
theorem Facts.tally_links_eq_ok {s : Settings} {p : Partition} {table : LinkTable}
    {j k : Journal} {tally : Tally Bucket} (hwf : table.WellFormed)
    (h : (Facts.links table).tally s p j = .ok tally k) :
    tally.CountsReached p s table.Links := by
  by_cases hempty : table.isEmpty = true
  · simp only [Facts.tally, hempty, if_true] at h
    obtain ⟨rfl, -⟩ := Step.pure_eq_ok.1 h
    exact Tally.countsReached_empty (LinkTable.not_links_of_isEmpty hwf hempty)
  · simp only [Facts.tally, hempty] at h
    obtain ⟨top, r, hrun, hpure⟩ := Step.bind_eq_ok.1 h
    obtain ⟨rfl, rfl⟩ := Step.pure_eq_ok.1 hpure
    -- the rows left at the last level are what is reached, and each is counted once
    obtain ⟨hwf', hlinks⟩ := Ascent.links_run hwf hrun
    intro b
    have hset : p.reachedSet s (table.Links b) = {o | o ∈ top.row b} := by
      ext o
      exact (hlinks b o).symm
    rw [hset, WordSet.ncard_members (hwf'.rows b)]
    exact ⟨Tally.get_ofTable hwf' b, Tally.mem_ofTable hwf'⟩

/-! ## §2 Whole passes -/

variable {s : Settings} {p : Partition}

/-- The partition that was opened, if it holds what the settings need. -/
def checked (s : Settings) (opened : Except Fault Partition) : Except Fault Partition := do
  let p ← opened
  p.check s
  return p

theorem checked_eq_ok {opened : Except Fault Partition} :
    checked s opened = .ok p ↔ opened = .ok p ∧ p.check s = .ok () := by
  unfold checked
  -- both steps have to answer, and the second answers nothing new
  constructor
  · intro h
    obtain ⟨q, rfl, hrest⟩ := Step.except_bind_eq_ok.1 h
    obtain ⟨⟨⟩, hcheck, hq⟩ := Step.except_bind_eq_ok.1 hrest
    cases hq
    exact ⟨rfl, hcheck⟩
  · rintro ⟨rfl, hcheck⟩
    exact Step.except_bind_eq_ok.2 ⟨p, rfl, Step.except_bind_eq_ok.2 ⟨(), hcheck, rfl⟩⟩

/-- Under valid settings a pass runs over the partition that was opened and checked.  Without one it
is degraded, and counted as such, if the fault is masked. -/
theorem settle_of_valid (hvalid : s.validate = .ok ()) (opened : Except Fault Partition)
    (j : Journal) :
    settle s opened j = match checked s opened with
      | .ok p => .ok (some p) j
      | .error fault =>
        if s.resilient ∧ fault.isConfiguration then
          .ok none { j with statistics := j.statistics.addDegraded }
        else .error fault j := by
  unfold settle
  rw [hvalid]
  change (match checked s opened with
    | .ok p => return some p
    | .error fault =>
      if s.resilient ∧ fault.isConfiguration then
        (do Journal.count (·.addDegraded); return none)
      else Step.fail fault : Step Journal (Option Partition)) j = _
  -- what is masked is decided by the settings and the kind of fault alone
  cases checked s opened with
  | ok p => rfl
  | error fault =>
    dsimp only
    split
    case isTrue => rfl
    case isFalse => rfl

theorem validate_of_settle {opened : Except Fault Partition} {found : Option Partition}
    {j k : Journal} (h : settle s opened j = .ok found k) : s.validate = .ok () := by
  obtain ⟨⟨⟩, r, hvalidate, -⟩ := Step.bind_eq_ok.1 h
  exact (Step.ofExcept_eq_ok.1 hvalidate).1

/-- What a pass is settled to run over is the partition that was opened and checked, or nothing; it
does not depend on the journal, of which the sink is left alone. -/
theorem settle_found {opened : Except Fault Partition} {found : Option Partition}
    {j k : Journal} (h : settle s opened j = .ok found k) :
    found = (checked s opened).toOption ∧ k.sink = j.sink := by
  rw [settle_of_valid (validate_of_settle h)] at h
  cases hchecked : checked s opened with
  | ok p =>
    rw [hchecked] at h
    cases h
    exact ⟨rfl, rfl⟩
  | error fault =>
    simp only [hchecked] at h
    -- masked, there is nothing to run over; otherwise the pass does not start
    split at h
    case isTrue =>
      cases h
      exact ⟨rfl, rfl⟩
    case isFalse => cases h

/-- A pass that is not degraded runs over the partition that was opened, under valid settings. -/
theorem settle_eq_ok {opened : Except Fault Partition} {j k : Journal}
    (h : settle s opened j = .ok (some p) k) :
    s.validate = .ok () ∧ opened = .ok p ∧ p.check s = .ok () := by
  have hfound := (settle_found h).1
  cases hchecked : checked s opened with
  | error fault =>
    rw [hchecked] at hfound
    cases hfound
  | ok q =>
    rw [hchecked] at hfound
    obtain rfl : p = q := Option.some.inj hfound
    exact ⟨validate_of_settle h, checked_eq_ok.1 hchecked⟩

namespace Pass

/-- A pass that starts and is not degraded has a gatherer before its first hit. -/
theorem start_eq_ok {pass : Pass} {j k : Journal} (h : start s (.ok p) j = .ok pass k)
    (hrunning : pass.isDegraded = false) :
    ∃ g, Gatherer.start s p = .ok g ∧ pass = ⟨s, some (p, g)⟩ := by
  obtain ⟨settled, r, hsettle, hrest⟩ := Step.bind_eq_ok.1 h
  cases settled with
  | none =>
    obtain ⟨rfl, -⟩ := Step.pure_eq_ok.1 hrest
    -- a degraded pass has no partition, which this one has
    simp [isDegraded] at hrunning
  | some q =>
    obtain ⟨-, hopened, -⟩ := settle_eq_ok hsettle
    obtain rfl : p = q := Except.ok.inj hopened
    obtain ⟨g, r', hstart, hpure⟩ := Step.bind_eq_ok.1 hrest
    obtain ⟨rfl, -⟩ := Step.pure_eq_ok.1 hpure
    obtain ⟨hg, -⟩ := Step.ofExcept_eq_ok.1 hstart
    exact ⟨g, hg, rfl⟩

/-- Taking a hit is up to the gatherer of a pass. -/
theorem take_eq_ok {g : Gatherer} {hit : Doc} {b : Bucket} {j k : Journal} {pass : Pass}
    {a : Unit} (h : take hit b (⟨s, some (p, g)⟩, j) = .ok a (pass, k)) :
    ∃ g', Gatherer.take s p hit b (g, j) = .ok a (g', k) ∧ pass = ⟨s, some (p, g')⟩ := by
  obtain ⟨r, r', hget, hrest⟩ := Step.bind_eq_ok.1 h
  obtain ⟨rfl, rfl⟩ := Step.get_eq_ok.1 hget
  obtain ⟨⟨g', j'⟩, htake, hput⟩ := Step.inside_eq_ok.1 hrest
  obtain ⟨rfl, rfl⟩ := Prod.mk.inj hput
  exact ⟨g', htake, rfl⟩

/-- A pass whose start, hits and end all succeed returns, for every bucket, the number of distinct
ordinals that the hits of the bucket reach at the last level. -/
theorem close_counts_reached {hits : List (Doc × Bucket)} {pass pass' : Pass}
    {j j₁ j₂ j₃ : Journal} {tally : Tally Bucket} (hlevels : 1 ≤ s.levels)
    (hstart : start s (.ok p) j = .ok pass j₁) (hrunning : pass.isDegraded = false)
    (htakes : (hits.forM fun (hit, b) => take hit b : Step (Pass × Journal) Unit) (pass, j₁) =
      .ok () (pass', j₂))
    (hclose : pass'.close j₂ = .ok tally j₃) :
    tally.CountsReached p s (p.Roots s hits) := by
  obtain ⟨g, hg, rfl⟩ := start_eq_ok hstart hrunning
  -- every hit adds its links, so in the end the table has the links of all hits
  have hheld := Step.forM_induction (s := (⟨s, some (p, g)⟩, j₁))
    (fun done (state : Pass × Journal) => ∃ g' table,
      state.1 = ⟨s, some (p, g')⟩ ∧ Gatherer.Holds s p done g' table)
    ⟨g, _, rfl, Gatherer.holds_start hlevels hg⟩ ?carry htakes
  case carry =>
    rintro done ⟨hit, b⟩ rest ⟨pass₁, k₁⟩ ⟨pass₂, k₂⟩ - ⟨g₁, table, rfl, hheld⟩ htake
    obtain ⟨g₂, htaken, rfl⟩ := take_eq_ok htake
    obtain ⟨table', hheld'⟩ := Gatherer.holds_take hheld htaken
    exact ⟨g₂, table', rfl, hheld'⟩
  obtain ⟨g', table, rfl, hheld⟩ := hheld
  obtain ⟨facts, r, hgathered, htally⟩ := Step.bind_eq_ok.1 hclose
  obtain ⟨⟨⟩, r', -, hpure⟩ := Step.bind_eq_ok.1 hgathered
  obtain ⟨rfl, rfl⟩ := Step.pure_eq_ok.1 hpure
  rw [hheld.facts] at htally
  have hroots : table.Links = p.Roots s hits := by
    funext b o
    exact propext (hheld.links b o)
  exact hroots ▸ Facts.tally_links_eq_ok hheld.wellFormed htally

/-- Three hits, two of which repeat each other, and three ancestors, one of which comes twice. -/
def family : Listing where
  keys := [(⟨0, 0⟩, 0, [1, 2]), (⟨0, 1⟩, 0, [2]), (⟨0, 2⟩, 0, [1]), (⟨0, 2⟩, 1, [5]),
    (⟨0, 3⟩, 0, [2]), (⟨0, 3⟩, 1, [6, 5]), (⟨0, 4⟩, 0, [9]), (⟨0, 4⟩, 1, [7])]
  ancestors := [[⟨0, 2⟩, ⟨0, 4⟩, ⟨0, 3⟩, ⟨0, 2⟩]]
  mains := none
  refusals := []

theorem close_counts_reached_family : ∃ tally : Tally Bucket, tally.get 0 = 2 ∧
    tally.CountsReached family.toPartition .default
      (family.toPartition.Roots .default [(⟨0, 0⟩, 0), (⟨0, 1⟩, 7), (⟨0, 0⟩, 0)]) := by
  have hrun : (start .default (.ok family.toPartition)).Answers (.start .unlimited)
      fun pass j₁ => pass.isDegraded = false ∧
        ([(⟨0, 0⟩, 0), (⟨0, 1⟩, 7), (⟨0, 0⟩, 0)].forM fun (hit, b) => take hit b :
          Step (Pass × Journal) Unit).Answers (pass, j₁)
          fun _ taken => taken.1.close.Answers taken.2 fun tally _ => tally.get 0 = 2 := by
    decide +kernel
  obtain ⟨pass, j₁, hstart, hrunning, hrest⟩ := Step.answers_iff.1 hrun
  obtain ⟨⟨⟩, ⟨pass', j₂⟩, htakes, hrest⟩ := Step.answers_iff.1 hrest
  obtain ⟨tally, j₃, hclose, htwo⟩ := Step.answers_iff.1 hrest
  exact ⟨tally, htwo, close_counts_reached (by decide) hstart hrunning htakes hclose⟩

end Pass

end Lineage
