import Lineage.Partition.Listing
import Lineage.Proofs.Climbing
import Lineage.Proofs.LinkTable.Converse
import Lineage.Proofs.LinkTable.Limit
import Lineage.Proofs.Records
import Mathlib.Order.Bounds.Basic

/-!
# Where a climb stops

A climb ends early at a level whose table has no rows.  Every row of the tables on the way has a
member, also where the table of the hits had rows without one, so this is the first level at which
nothing is reached.  Up to there each level is scanned once, in turn, and nothing is asked beyond.
Going on instead would change neither the answer nor the tables: there would be nothing to find, and
only the partition could still fail.

## Main statements

- `Transition.filled_of_climb`: every row above has a member if every row below has one;
- `Ascent.climbThrough_of_isEmpty`: what a climb from an empty table comes to without the stop;
- `Ascent.climbs_climbFrom`, `Ascent.stops_run`: where a climb stops, and what it does until then.
-/

namespace Lineage

open Step

/-- The level of a scan that is asked for. -/
def Request.scanned? : Request → Option Level
  | .scan level => some level
  | .keys _ _ => none

theorem Request.filterMap_scanned?_of_keys {most : Level} {asked : List Request}
    (h : ∀ r ∈ asked, r.KeysUpTo most) : asked.filterMap Request.scanned? = [] := by
  rw [List.filterMap_eq_nil_iff]
  intro r hr
  cases r with
  | keys level doc => rfl
  | scan level => exact (h _ hr).elim

/-- What a partition fails with when it is asked for keys from a level on, or for scans above it, up
to the last level. -/
def Partition.FailsFrom (p : Partition) (level last : Level) (fault : Fault) : Prop :=
  (∃ l doc, level ≤ l ∧ l ≤ last ∧ p.keys l doc = .error fault) ∨
    ∃ l, level < l ∧ l ≤ last ∧ (p.scan l).ending = .error fault

theorem Partition.FailsFrom.mono {p : Partition} {level last level' last' : Nat} {fault : Fault}
    (h : p.FailsFrom level last fault) (hlevel : level' ≤ level) (hlast : last ≤ last') :
    p.FailsFrom level' last' fault := by
  rcases h with ⟨l, doc, hfrom, hto, hkeys⟩ | ⟨l, hfrom, hto, hscan⟩
  · exact .inl ⟨l, doc, Nat.le_trans hlevel hfrom, Nat.le_trans hto hlast, hkeys⟩
  · exact .inr ⟨l, Nat.lt_of_le_of_lt hlevel hfrom, Nat.le_trans hto hlast, hscan⟩

/-! ## §1 Tables without empty rows -/

namespace Transition

variable {handingOn : Bool} {p : Partition} {level : Level} {below above : LinkTable}
  {j k : Journal}

/-- Every row of what has been reached has a member, and the table keeps its limit. -/
structure Filled (limit : Nat) (t : LinkTable) : Prop where
  inhabited : t.Inhabited
  limit : t.limit = limit

theorem filled_empty (limit : Nat) : Filled limit (.empty limit) :=
  ⟨LinkTable.inhabited_empty limit, rfl⟩

/-- Rows with members only bring members. -/
theorem spreads_filled {rows : List WordSet} (hrows : ∀ row ∈ rows, ∃ b, b ∈ row) (limit : Nat) :
    Spreads handingOn rows (fun t => Filled limit t.reached) (fun _ => True) where
  insert _ o b := by
    have hinsert : Heeds (Filled limit) (fun _ => True) (LinkTable.insert o b) := fun t ht =>
      ⟨⟨ht.inhabited.after_insert o b, (LinkTable.metered_insert o b).limit.trans ht.limit⟩,
        fun _ _ => trivial⟩
    exact heeds_onReached hinsert (fun _ ht => ht) (fun _ _ _ hr => hr) fun _ _ => trivial
  handOn _ pair := by
    have hhand : Heeds (fun _ => True) (fun _ => True) (Journal.handOn pair) :=
      fun _ _ => heedsAt_of_any
    exact (heeds_onJournal hhand (fun _ _ => trivial) fun _ _ ht _ => ht).bind fun _ =>
      heeds_modify fun _ ht => ht
  addRow _ row hrow o := by
    have hadd : Heeds (Filled limit) (fun _ => True) (LinkTable.addRow o row) := fun t ht =>
      ⟨⟨ht.inhabited.after_addRow o (hrows row hrow),
        (LinkTable.metered_addRow o row).limit.trans ht.limit⟩, fun _ _ => trivial⟩
    exact heeds_onReached hadd (fun _ ht => ht) (fun _ _ _ hr => hr) fun _ _ => trivial

/-- Asking for keys changes no table, and fails only as the partition does. -/
theorem heeds_keysOf_reached {I : LinkTable → Prop} {may : Fault → Prop} {doc : Doc}
    (hkeys : ∀ fault, p.keys level doc = .error fault → may fault) :
    Heeds (fun t => I t.reached) may (keysOf p level doc) :=
  heeds_keysOf (fun _ ht => heedsAt_of_ok rfl ht) hkeys

theorem filled_of_climb (hbelow : below.Inhabited)
    (h : climb handingOn p level below j = .ok above k) : Filled below.limit above := by
  have hrows (lower : List Ordinal) : ∀ row ∈ lower.filterMap below.row?, ∃ b, b ∈ row := by
    intro row hrow
    obtain ⟨o, -, hrow⟩ := List.mem_filterMap.1 hrow
    exact hbelow o row hrow
  -- rows are added with members only, visit by visit, so no row is left without one
  have hwalk : Heeds (fun t => Filled below.limit t.reached) (fun _ => True)
      (walk handingOn p level below) :=
    Visits.heeds_forEach (fun doc => heeds_visit_of (heeds_keysOf_reached fun _ _ => trivial)
      (heeds_keysOf_reached fun _ _ => trivial)
      fun lower _ => (spreads_filled (hrows _) _).spread doc _) fun _ _ => trivial
  obtain ⟨u, hrun, rfl, -⟩ := climb_eq_ok_iff.1 h
  have hfilled := (hwalk (setOut level below j) (filled_empty _)).after
  rwa [Step.after_of_ok hrun] at hfilled

/-! ## §2 Transitions from nothing -/

/-- Nothing is spread from a table without rows, so only the partition can fail. -/
theorem climb_of_isEmpty (hbelow : below.WellFormed) (hempty : below.isEmpty = true)
    (handingOn : Bool) (p : Partition) (level : Level) (j : Journal) :
    (∃ k, climb handingOn p level below j = .ok (.empty below.limit) k) ∨
      ∃ fault k, climb handingOn p level below j = .error fault k ∧
        p.FailsFrom level (level + 1) fault := by
  -- a table without rows has none for the keys of any document
  have hrows (lower : List Ordinal) : lower.filterMap below.row? = [] := by
    rw [List.filterMap_eq_nil_iff]
    intro o _
    exact LinkTable.rowSets_eq_none_iff.1 (hbelow.shows.isEmpty.1 hempty o)
  -- so visits ask for keys and do nothing else
  have hwalk : Heeds (fun t => t.reached = .empty below.limit) (p.FailsFrom level (level + 1))
      (walk handingOn p level below) := by
    refine Visits.heeds_forEach (fun doc => heeds_visit_of ?_ ?_ fun lower upper => ?_) ?_
    · exact heeds_keysOf_reached (I := (· = .empty below.limit)) fun fault h =>
        .inl ⟨level, doc, Nat.le_refl _, Nat.le_succ _, h⟩
    · exact heeds_keysOf_reached (I := (· = .empty below.limit)) fun fault h =>
        .inl ⟨level + 1, doc, Nat.le_succ _, Nat.le_refl _, h⟩
    · rw [hrows, spread_nil]
      exact heeds_pure ()
    · exact fun fault h => .inr ⟨_, Nat.lt_succ_self _, Nat.le_refl _, h⟩
  have hrun := hwalk (setOut level below j) rfl
  cases hstep : walk handingOn p level below (setOut level below j) with
  | ok a u =>
    have hnothing := hrun.after
    rw [Step.after_of_ok hstep] at hnothing
    exact .inl ⟨_, hnothing ▸ climb_of_walk_ok hstep⟩
  | error fault u =>
    exact .inr ⟨fault, _, climb_of_walk_error hstep, hrun.faults fault (Step.result_of_error hstep)⟩

end Transition

/-! ## §3 Climbs with and without the stop -/

namespace Ascent

variable {s : Settings} {p : Partition} {handingOn : Bool} {roots : Bucket → Ordinal → Prop}

/-- Climb `n` more levels from `level` on, whether or not anything is reached, then turn the table
back to buckets. -/
def climbThrough (handingOn : Bool) (p : Partition) :
    Nat → Level → LinkTable → Step Journal LinkTable
  | 0, _, table => Step.ofExcept table.converse
  | n + 1, level, table => do
    let above ← Transition.climb (handingOn && n = 0) p level table
    climbThrough handingOn p n (level + 1) above

/-- Climb all levels of a pass without stopping early. -/
def runThrough (s : Settings) (p : Partition) (table : LinkTable) : Step Journal LinkTable :=
  if s.levels = 0 then
    pure table
  else do
    let byOrdinal ← Step.ofExcept table.converse
    climbThrough (s.forwardHits && s.mode = .ancestors) p s.levels 0 byOrdinal

/-- From a table without rows, a climb without the stop comes to an empty table, unless the
partition fails. -/
theorem climbThrough_of_isEmpty (handingOn : Bool) (p : Partition) (n level : Nat)
    {table : LinkTable} (hwf : table.WellFormed) (hempty : table.isEmpty = true) (j : Journal) :
    (∃ k, climbThrough handingOn p n level table j = .ok (.empty table.limit) k) ∨
      ∃ fault k, climbThrough handingOn p n level table j = .error fault k ∧
        p.FailsFrom level (level + n) fault := by
  induction n generalizing level table j with
  | zero =>
    left
    refine ⟨j, ?_⟩
    rw [climbThrough, LinkTable.converse_of_isEmpty hwf hempty]
    rfl
  | succ n ih =>
    rw [climbThrough]
    -- the table above is empty again, so the levels that are left are the case of the induction
    rcases Transition.climb_of_isEmpty hwf hempty (handingOn && n = 0) p level j with
      ⟨k, hclimb⟩ | ⟨fault, k, hclimb, hfails⟩
    · rw [Step.bind_of_ok hclimb]
      have hrest := ih (level + 1) (LinkTable.wellFormed_empty table.limit) rfl k
      refine hrest.imp id fun ⟨fault, k', hrun, hfails⟩ => ⟨fault, k', hrun, ?_⟩
      exact hfails.mono (Nat.le_succ level) (by omega)
    · right
      exact ⟨fault, k, Step.bind_of_error hclimb, hfails.mono (Nat.le_refl _) (by omega)⟩

/-- A climb that had `n` levels to go has climbed some of them and answered. -/
structure Climbs (handingOn : Bool) (p : Partition) (roots : Bucket → Ordinal → Prop)
    (n level : Nat) (table : LinkTable) (j : Journal) (top : LinkTable) (k : Journal)
    (climbed : Nat) : Prop where
  le : climbed ≤ n
  /-- It has climbed from levels where something is reached. -/
  reached : ∀ i < climbed, ∃ b o, p.Reaches (roots b) (level + i) o
  /-- If it has stopped early, then where nothing is. -/
  unreached : climbed < n → ∀ b o, ¬p.Reaches (roots b) (level + climbed) o
  asked : ∃ asked, k.requests.toList = j.requests.toList ++ asked ∧
    asked.filterMap Request.scanned? = List.range' (level + 1) climbed ∧
    ∀ l doc, .keys l doc ∈ asked → l ≤ level + climbed
  levels : k.statistics.levels = j.statistics.levels + .ofNat climbed
  scanned : k.statistics.scanned = j.statistics.scanned +
    .ofNat ((List.range' (level + 1) climbed).map p.visitCount).sum
  /-- Without an early stop it does not differ from a climb without the stop. -/
  whole : climbed = n → climbThrough handingOn p n level table j = .ok top k
  stopped : climbed < n → top = .empty table.limit ∧
    ((∃ k', climbThrough handingOn p n level table j = .ok (.empty table.limit) k') ∨
      ∃ fault k', climbThrough handingOn p n level table j = .error fault k' ∧
        p.FailsFrom (level + climbed) (level + n) fault)

/-- Where nothing is reached, the climb has stopped and asked nothing. -/
theorem climbs_of_isEmpty {n level : Nat} {table : LinkTable} {j : Journal}
    (hwf : table.WellFormed) (hempty : table.isEmpty = true)
    (hnone : ∀ b o, ¬p.Reaches (roots b) level o) :
    Climbs handingOn p roots (n + 1) level table j (.empty table.limit) j 0 where
  le := Nat.zero_le _
  reached _ hi := absurd hi (Nat.not_lt_zero _)
  unreached _ := hnone
  asked := ⟨[], by simp, rfl, by simp⟩
  levels := by simp
  scanned := by simp
  whole hall := absurd hall.symm (Nat.succ_ne_zero n)
  stopped _ := ⟨rfl, climbThrough_of_isEmpty handingOn p (n + 1) level hwf hempty j⟩

/-- A transition from a level where something is reached comes before what is climbed from the next
level on. -/
theorem Climbs.succ {n level climbed : Nat} {table above top : LinkTable} {j r k : Journal}
    (hreach : ∃ b o, p.Reaches (roots b) level o)
    (hclimb : Transition.climb (handingOn && n = 0) p level table j = .ok above r)
    (hlimit : above.limit = table.limit)
    (h : Climbs handingOn p roots n (level + 1) above r top k climbed) :
    Climbs handingOn p roots (n + 1) level table j top k (climbed + 1) := by
  obtain ⟨pairs, hrecords, hcounted⟩ := Transition.records_of_climb_ok hclimb
  refine ⟨Nat.succ_le_succ h.le, ?reached, ?unreached, ?asked, ?levels, ?scanned, ?whole, ?stopped⟩
  case reached =>
    -- the level of the transition first, then those of the levels above
    rintro (_ | i) hi
    · exact hreach
    · have hreached := h.reached i (Nat.lt_of_succ_lt_succ hi)
      rwa [Nat.add_right_comm, Nat.add_assoc] at hreached
  case unreached =>
    intro hearly
    have hnone := h.unreached (Nat.lt_of_succ_lt_succ hearly)
    rwa [Nat.add_right_comm, Nat.add_assoc] at hnone
  case asked =>
    -- the transition asks for its scan and then for keys, and what is asked above comes after
    obtain ⟨asked, hasked, hkeys⟩ := hrecords.asked
    obtain ⟨asked', hasked', hscans, hkeys'⟩ := h.asked
    refine ⟨.scan (level + 1) :: asked ++ asked', ?_, ?_, fun l doc hmem => ?_⟩
    · rw [hasked', hasked, List.append_assoc]
    · have hscan : Request.scanned? (.scan (level + 1)) = some (level + 1) := rfl
      rw [List.cons_append, List.filterMap_cons_some hscan, List.filterMap_append,
        Request.filterMap_scanned?_of_keys hkeys, hscans]
      rfl
    · rcases List.mem_append.1 hmem with hfirst | hlater
      · rcases List.mem_cons.1 hfirst with heq | hfirst
        · cases heq
        · have hle : l ≤ level + 1 := hkeys _ hfirst
          omega
      · have hle := hkeys' l doc hlater
        omega
  -- counters wrap, and addition of words is associative all the same
  case levels =>
    rw [h.levels, hcounted, Nat.add_comm climbed 1, UInt64.ofNat_add, ← UInt64.add_assoc]
    rfl
  case scanned =>
    rw [h.scanned, hcounted, List.range'_succ, List.map_cons, List.sum_cons,
      UInt64.ofNat_add, ← UInt64.add_assoc]
    rfl
  case whole =>
    intro hall
    rw [climbThrough, Step.bind_of_ok hclimb]
    exact h.whole (Nat.succ.inj hall)
  case stopped =>
    intro hearly
    -- without the stop too, this transition comes first and leads to the same table
    obtain ⟨htop, hthrough⟩ := h.stopped (Nat.lt_of_succ_lt_succ hearly)
    rw [hlimit] at htop hthrough
    rw [climbThrough, Step.bind_of_ok hclimb]
    refine ⟨htop, hthrough.imp id ?_⟩
    rintro ⟨fault, k', hrun, hfails⟩
    exact ⟨fault, k', hrun, hfails.mono (by omega) (by omega)⟩

/-- The induction is over the levels left to climb: a table with a row has a link, and so has every
table with a row above it. -/
theorem climbs_climbFrom {n level : Nat} {table top : LinkTable} {j k : Journal}
    (hwf : table.WellFormed) (hrows : table.Inhabited)
    (htable : ∀ o b, table.Links o b ↔ p.Reaches (roots b) level o)
    (h : climbFrom handingOn p n level table j = .ok top k) :
    ∃ climbed, Climbs handingOn p roots n level table j top k climbed := by
  induction n generalizing level table j with
  | zero =>
    obtain ⟨-, rfl⟩ := Step.ofExcept_eq_ok.1 h
    refine ⟨0, Nat.le_refl 0, by simp, by simp, ⟨[], by simp, rfl, by simp⟩, by simp, by simp,
      fun _ => h, by simp⟩
  | succ n ih =>
    unfold climbFrom at h
    cases hempty : table.isEmpty with
    -- the climb has stopped, and rightly so: an empty table has no links
    | true =>
      rw [if_pos hempty] at h
      obtain ⟨rfl, rfl⟩ := Step.pure_eq_ok.1 h
      refine ⟨0, climbs_of_isEmpty hwf hempty fun b o hreach => ?_⟩
      exact LinkTable.not_links_of_isEmpty hwf hempty o b ((htable o b).2 hreach)
    | false =>
      rw [if_neg (by rw [hempty]; exact Bool.false_ne_true)] at h
      obtain ⟨above, r, hclimb, hrest⟩ := Step.bind_eq_ok.1 h
      obtain ⟨pairs, hclimbed⟩ := Transition.climb_eq_ok hwf hclimb
      have hfilled := Transition.filled_of_climb hrows hclimb
      obtain ⟨climbed, hup⟩ :=
        ih hclimbed.wellFormed hfilled.inhabited (hclimbed.reaches htable) hrest
      -- a table with a row has a link, so something is reached at this level
      obtain ⟨o, b, hlink⟩ := hrows.exists_links hwf hempty
      exact ⟨climbed + 1, hup.succ ⟨b, o, (htable o b).1 hlink⟩ hclimb hfilled.limit⟩

/-- A climb that answers stops at the first level at which no bucket reaches anything, or at the
last.  Until there it scans each level once, in turn, asks for no keys beyond, and counts the levels
and the documents visited.  If it stops early, its answer is the empty table, and so is that of a
climb that goes on all the same, unless the partition fails above. -/
theorem stops_run {table top : LinkTable} {j k : Journal} (hwf : table.WellFormed)
    (h : run s p table j = .ok top k) :
    ∃ stop, IsLeast {level | level < s.levels ∧ (∀ b o, ¬p.Reaches (table.Links b) level o) ∨
        level = s.levels} stop ∧
      (∃ asked, k.requests.toList = j.requests.toList ++ asked ∧
        asked.filterMap Request.scanned? = List.range' 1 stop ∧
        ∀ level doc, .keys level doc ∈ asked → level ≤ stop) ∧
      k.statistics.levels = j.statistics.levels + .ofNat stop ∧
      k.statistics.scanned = j.statistics.scanned +
        .ofNat ((List.range' 1 stop).map p.visitCount).sum ∧
      (stop = s.levels → runThrough s p table j = .ok top k) ∧
      (stop < s.levels → top = .empty table.limit ∧
        ((∃ k', runThrough s p table j = .ok (.empty table.limit) k') ∨
          ∃ fault k', runThrough s p table j = .error fault k' ∧
            p.FailsFrom stop s.levels fault)) := by
  unfold runThrough
  unfold run at h
  by_cases hlevels : s.levels = 0
  · -- there is no level to climb, so the table is the answer
    rw [if_pos hlevels] at h
    obtain ⟨rfl, rfl⟩ := Step.pure_eq_ok.1 h
    refine ⟨0, ⟨.inr hlevels.symm, fun _ _ => Nat.zero_le _⟩, ⟨[], by simp, rfl, by simp⟩, by simp,
      by simp, fun _ => ?_, fun hearly => absurd hlevels (Nat.ne_zero_of_lt hearly)⟩
    rw [if_pos hlevels]
    rfl
  · rw [if_neg hlevels] at h
    obtain ⟨byOrdinal, r, hconverse, hclimb⟩ := Step.bind_eq_ok.1 h
    obtain ⟨hbyOrdinal, rfl⟩ := Step.ofExcept_eq_ok.1 hconverse
    obtain ⟨hwf', hlimit, hlinks⟩ := LinkTable.converse_eq_ok hwf hbyOrdinal
    have hbottom (o : Ordinal) (b : Bucket) :
        byOrdinal.Links o b ↔ p.Reaches (table.Links b) 0 o := by
      rw [hlinks, Partition.reaches_zero]
    -- rows of a table turned around have members, whatever rows the table of the hits had
    obtain ⟨stop, hclimbs⟩ :=
      climbs_climbFrom hwf' (LinkTable.inhabited_of_converse hbyOrdinal) hbottom hclimb
    obtain ⟨hle, hreached, hunreached, hasked, hcount, hscanned, hwhole, hstopped⟩ := hclimbs
    simp only [Nat.zero_add] at hreached hunreached hasked hscanned hstopped
    rw [hlimit] at hstopped
    rw [if_neg hlevels, Step.bind_of_ok hconverse]
    refine ⟨stop, ⟨?_, ?_⟩, hasked, hcount, hscanned, hwhole, hstopped⟩
    · exact (Nat.lt_or_eq_of_le hle).imp (fun hearly => ⟨hearly, hunreached hearly⟩) id
    · rintro level (⟨-, hnone⟩ | rfl)
      · -- below the stop something is reached at every level
        by_contra hbelow
        obtain ⟨b, o, hreach⟩ := hreached level (Nat.lt_of_not_le hbelow)
        exact hnone b o hreach
      · exact hle

/-- Three levels; nothing is reached at the second one, and the third one cannot be scanned. -/
private def stub : Listing where
  keys := [(⟨0, 1⟩, 0, [3]), (⟨0, 1⟩, 1, [4]), (⟨0, 2⟩, 0, [5]), (⟨0, 2⟩, 1, [6]),
    (⟨0, 3⟩, 1, [6]), (⟨0, 3⟩, 2, [7])]
  ancestors := [[⟨0, 1⟩, ⟨0, 1⟩, ⟨0, 2⟩], [⟨0, 3⟩], [⟨0, 4⟩]]
  mains := none
  refusals := [(.scan 3 0, .ofCause (.stated "walk broken off"))]

/-- A bucket with an ordinal, and one whose row has no members. -/
private def seedling : LinkTable.History := .amend (.insert (.new 4096) 0 3) 5 []

private def threeLevels : Settings := { Settings.default with levels := 3 }

private theorem stub_climbed :
    ∃ top k, run threeLevels stub.toPartition seedling.table (.start .unlimited) = .ok top k ∧
      k.requests.toList.filterMap Request.scanned? = [1, 2] := by
  have hrun : (run threeLevels stub.toPartition seedling.table).Answers (.start .unlimited)
      fun _ k => k.requests.toList.filterMap Request.scanned? = [1, 2] := by
    decide +kernel
  exact Step.answers_iff.1 hrun

/-- The climb stops at the second level, so that the broken walk does not come to light. -/
theorem stops_run_stub :
    ∃ top k, run threeLevels stub.toPartition seedling.table (.start .unlimited) = .ok top k ∧
      IsLeast {level | level < threeLevels.levels ∧
        (∀ b o, ¬stub.toPartition.Reaches (seedling.table.Links b) level o) ∨
          level = threeLevels.levels} 2 ∧
      k.statistics.scanned = 3 ∧ top = .empty seedling.table.limit := by
  obtain ⟨top, k, hrun, hscans⟩ := stub_climbed
  obtain ⟨stop, hleast, ⟨asked, hasked, hturn, -⟩, -, hscanned, -, hstopped⟩ :=
    stops_run seedling.wellFormed_table hrun
  have hall : k.requests.toList = asked := hasked
  -- two levels have been scanned, which tells where the climb stopped
  obtain rfl : stop = 2 := by
    have hlength := congrArg List.length (hturn.symm.trans (hall ▸ hscans))
    rwa [List.length_range'] at hlength
  refine ⟨top, k, hrun, hleast, ?_, (hstopped (by decide)).1⟩
  rw [hscanned]
  decide +kernel

end Ascent

end Lineage
