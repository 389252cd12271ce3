import Lineage.Partition.Listing
import Lineage.Proofs.Records
import Lineage.Proofs.Resilience

/-!
# Counts of pairs handed on

Hits count each pair as the sink takes it, so whatever fails, counter and sink stay in step.  The
last level transition counts its pairs only when it has come to its end.  If it breaks off, the
pairs that the sink has taken by then are not counted, and this is the only way in which the counter
falls behind.

## Main statements

- `Gatherer.conducts_inStep`: no hit brings the counter out of step;
- `Ascent.accounts_climbFrom`: the pairs of a climb count if all its transitions come to their end;
- `Pass.counts_session`: start, hits and end of a pass.
-/

namespace Lineage

open Step

/-! ## §1 Counter and sink in step -/

namespace Journal

/-- On the way from one journal to another, the counter has gone up by as many pairs as the sink has
taken. -/
def Counts (j k : Journal) : Prop :=
  ∃ pairs : List Handoff, k.sink.taken.toList = j.sink.taken.toList ++ pairs ∧
    k.statistics.forwarded = j.statistics.forwarded + .ofNat pairs.length

variable {j k l : Journal}

/-- Counting the pairs between two journals tells whether the counter has kept in step. -/
theorem counts_iff : j.Counts k ↔ j.sink.taken.toList <+: k.sink.taken.toList ∧
    k.statistics.forwarded =
      j.statistics.forwarded + .ofNat (k.sink.taken.size - j.sink.taken.size) := by
  have hlength {pairs : List Handoff} (h : k.sink.taken.toList = j.sink.taken.toList ++ pairs) :
      k.sink.taken.size - j.sink.taken.size = pairs.length := by
    rw [← Array.length_toList, h, List.length_append, Array.length_toList, Nat.add_sub_cancel_left]
  constructor
  · rintro ⟨pairs, htaken, hcount⟩
    exact ⟨⟨pairs, htaken.symm⟩, by rw [hlength htaken, hcount]⟩
  · rintro ⟨⟨pairs, htaken⟩, hcount⟩
    exact ⟨pairs, htaken.symm, by rw [← hlength htaken.symm, hcount]⟩

instance (j k : Journal) : Decidable (j.Counts k) := decidable_of_iff' _ counts_iff

theorem counts_of_same (htaken : k.sink.taken = j.sink.taken)
    (hforwarded : k.statistics.forwarded = j.statistics.forwarded) : j.Counts k :=
  ⟨[], by rw [htaken, List.append_nil], by rw [hforwarded]; simp⟩

/-- After further pairs, counter and sink are in step again exactly if the counter has gone up by
their number. -/
theorem Counts.append_iff (h : j.Counts k) {pairs : List Handoff}
    (htaken : l.sink.taken.toList = k.sink.taken.toList ++ pairs) :
    j.Counts l ↔ l.statistics.forwarded = k.statistics.forwarded + .ofNat pairs.length := by
  obtain ⟨before, hbefore, hcount⟩ := h
  have hall : l.sink.taken.toList = j.sink.taken.toList ++ (before ++ pairs) := by
    rw [htaken, hbefore, List.append_assoc]
  have hsum : k.statistics.forwarded + .ofNat pairs.length =
      j.statistics.forwarded + .ofNat (before ++ pairs).length := by
    rw [hcount, List.length_append, UInt64.ofNat_add, UInt64.add_assoc]
  rw [hsum]
  constructor
  · rintro ⟨all, htakenAll, hcounted⟩
    -- the pairs taken in between are told by the two journals
    obtain rfl : all = before ++ pairs := List.append_cancel_left (htakenAll.symm.trans hall)
    exact hcounted
  · exact fun hcounted => ⟨_, hall, hcounted⟩

end Journal

/-! ## §2 Hits -/

namespace Gatherer

variable {s : Settings} {p : Partition} {j : Journal}

/-- Since a journal, counter and sink have kept in step, and no level has been counted. -/
structure InStep (j : Journal) (x : Gatherer × Journal) : Prop where
  counts : j.Counts x.2
  levels : x.2.statistics.levels = j.statistics.levels

/-- A pair that the sink takes is counted at once, and one that it refuses is not. -/
theorem InStep.handOn (b : Bucket) (doc : Doc) :
    Heeds (InStep j) (fun _ => True) (handOn b doc) := by
  rintro ⟨g, k⟩ hx
  apply heedsAt_handOn
  cases hhand : Journal.handOn ⟨b, doc⟩ k with
  -- the sink has taken the pair, and it is counted next
  | ok a l =>
    have hleft := Journal.handOn_eq_ok hhand
    subst hleft
    refine heedsAt_of_ok (Step.bind_of_ok hhand) ⟨?_, hx.levels⟩
    exact (hx.counts.append_iff (Array.toList_push ..)).2 rfl
  -- a refusal breaks off before the counter, and the sink has not taken the pair
  | error fault l =>
    have hleft := Journal.handOn_eq_error hhand
    subst hleft
    exact heedsAt_of_error (Step.bind_of_error hhand) ⟨hx.counts, hx.levels⟩ trivial

theorem conducts_inStep : Conducts p (InStep j) (fun _ => True) where
  own _ _ _ hx _ := ⟨hx.counts, hx.levels⟩
  outgrown _ _ := trivial
  handOn := InStep.handOn
  ownKeys _ _ _ _ _ hx :=
    heedsAt_ownKeys (heedsAt_of_ok rfl ⟨hx.counts, hx.levels⟩) fun _ _ => trivial

end Gatherer

/-! ## §3 Climbs -/

theorem Settings.levels_le_of_validate {s : Settings} (h : s.validate = .ok ()) :
    s.levels ≤ mostLevels := by
  unfold validate at h
  split at h
  case isTrue => cases h
  case isFalse =>
    split at h
    case isTrue => cases h
    case isFalse hfew => exact Nat.le_of_not_lt hfew

/-- What a climb of some levels leaves in a journal: the pairs that the sink has taken, and how many
transitions have come to their end.  The pairs are counted if none is missing. -/
def Journal.Accounts (levels : Nat) (j k : Journal) (pairs : List Handoff) : Prop :=
  k.sink.taken.toList = j.sink.taken.toList ++ pairs ∧
    ∃ done ≤ levels, k.statistics.levels = j.statistics.levels + .ofNat done ∧
      k.statistics.forwarded =
        j.statistics.forwarded + if done = levels then .ofNat pairs.length else 0

variable {j k : Journal}

/-- With few levels, the counter of levels tells whether a transition is missing. -/
theorem Journal.Accounts.forwarded_iff {levels : Nat} {pairs : List Handoff}
    (h : j.Accounts levels k pairs) (hfew : levels ≤ Settings.mostLevels) :
    k.statistics.forwarded = j.statistics.forwarded + .ofNat pairs.length ↔
      k.statistics.levels = j.statistics.levels + .ofNat levels ∨
        UInt64.ofNat pairs.length = 0 := by
  obtain ⟨-, done, hdone, hlevels, hforwarded⟩ := h
  -- the counter of levels wraps, but not within as few levels as are allowed
  have hall : k.statistics.levels = j.statistics.levels + .ofNat levels ↔ done = levels := by
    rw [hlevels, UInt64.add_right_inj]
    constructor
    · intro heq
      have hnat := congrArg UInt64.toNat heq
      rw [UInt64.toNat_ofNat', UInt64.toNat_ofNat'] at hnat
      simp only [Settings.mostLevels] at hfew
      omega
    · exact fun heq => heq ▸ rfl
  rw [hforwarded, UInt64.add_right_inj, hall]
  by_cases hcame : done = levels
  · simp [hcame]
  · simp [hcame, eq_comm]

theorem Journal.accounts_refl (levels : Nat) (j : Journal) : j.Accounts levels j [] := by
  refine ⟨by simp, 0, Nat.zero_le levels, by simp, ?_⟩
  split <;> simp

namespace Ascent

theorem accounts_climbFrom (handingOn : Bool) (p : Partition) (n : Nat) (level : Level)
    (table : LinkTable) (j : Journal) :
    ∃ pairs, j.Accounts n ((climbFrom handingOn p n level table).after j) pairs := by
  -- the last transition is the only one that hands on, and counts its pairs when it has ended
  induction n generalizing level table j with
  | zero =>
    have hsame : (climbFrom handingOn p 0 level table).after j = j := by
      unfold climbFrom
      cases table.converse <;> rfl
    rw [hsame]
    exact ⟨[], j.accounts_refl 0⟩
  | succ n ih =>
    unfold climbFrom
    split
    case isTrue => exact ⟨[], j.accounts_refl (n + 1)⟩
    case isFalse =>
      cases hclimb : Transition.climb (handingOn && n = 0) p level table j with
      | error fault k =>
        -- nothing has been counted, whatever the sink has taken
        rw [Step.after_bind_of_error hclimb]
        obtain ⟨hsame, pairs, hrecords⟩ := Transition.records_of_climb_error hclimb
        refine ⟨pairs, hrecords.taken, 0, Nat.zero_le _, ?_, ?_⟩
        · rw [hsame]
          simp
        · rw [hsame, if_neg (Nat.succ_ne_zero n).symm, UInt64.add_zero]
      | ok above k =>
        rw [Step.after_bind_of_ok hclimb]
        obtain ⟨pairs, hrecords, hcounted⟩ := Transition.records_of_climb_ok hclimb
        obtain ⟨more, htaken, done, hdone, hlevels, hforwarded⟩ := ih (level + 1) above k
        -- it has ended, and so have as many of those above as the induction says
        refine ⟨pairs ++ more, ?_, done + 1, Nat.succ_le_succ hdone, ?_, ?_⟩
        · rw [htaken, hrecords.taken, List.append_assoc]
        · rw [hlevels, hcounted, Nat.add_comm done 1, UInt64.ofNat_add, ← UInt64.add_assoc]
          rfl
        · have hfirst : k.statistics.forwarded = j.statistics.forwarded + .ofNat pairs.length := by
            rw [hcounted]
            rfl
          rw [hforwarded, hfirst, UInt64.add_assoc]
          by_cases hall : done = n
          · rw [if_pos hall, if_pos (congrArg (· + 1) hall), List.length_append, UInt64.ofNat_add]
          · -- a transition is missing, so this was not the last one and handed nothing on
            have hnone : pairs = [] := hrecords.silent (by simp; omega)
            rw [if_neg hall, if_neg fun heq => hall (Nat.succ.inj heq), hnone]
            rfl

theorem accounts_run (s : Settings) (p : Partition) (table : LinkTable) (j : Journal) :
    ∃ pairs, j.Accounts s.levels ((run s p table).after j) pairs := by
  unfold run
  split
  case isTrue => exact ⟨[], j.accounts_refl _⟩
  case isFalse =>
    cases table.converse with
    | error fault => exact ⟨[], j.accounts_refl _⟩
    | ok byOrdinal => exact accounts_climbFrom _ p s.levels 0 byOrdinal j

end Ascent

theorem Facts.accounts_tally (s : Settings) (p : Partition) (facts : Facts) (j : Journal) :
    ∃ pairs, j.Accounts s.levels ((facts.tally s p).after j) pairs := by
  cases facts with
  | documents seen => exact ⟨[], j.accounts_refl _⟩
  | links table =>
    simp only [Facts.tally]
    split
    case isTrue => exact ⟨[], j.accounts_refl _⟩
    case isFalse =>
      exact Step.after_bind (fun k => ∃ pairs, j.Accounts s.levels k pairs)
        (Ascent.accounts_run s p table j) fun _ _ _ hk => hk

/-! ## §4 Passes -/

namespace Pass

variable {s : Settings} {j k : Journal}

/-- The end of a pass only adds the number of hits to what it counts on the way up. -/
theorem accounts_close (s : Settings) (active : Option (Partition × Gatherer)) (j : Journal) :
    ∃ pairs, j.Accounts s.levels ((⟨s, active⟩ : Pass).close.after j) pairs := by
  cases active with
  | none => exact ⟨[], j.accounts_refl _⟩
  | some running =>
    obtain ⟨p, g⟩ := running
    let counted : Journal := { j with statistics := j.statistics.addCollected (.ofNat g.hits) }
    obtain ⟨pairs, haccounts⟩ := Facts.accounts_tally s p g.facts counted
    exact ⟨pairs, haccounts⟩

/-- While hits are taken, and whatever becomes of them, counter and sink stay in step. -/
theorem inStep_takeEach (hits : List (Doc × Bucket)) (active : Option (Partition × Gatherer))
    (h : j.Counts k ∧ k.statistics.levels = j.statistics.levels) :
    ∃ active' k', takeEach hits (⟨s, active⟩, k) = (⟨s, active'⟩, k') ∧
      j.Counts k' ∧ k'.statistics.levels = j.statistics.levels := by
  induction hits generalizing active k with
  | nil => exact ⟨active, k, rfl, h⟩
  | cons hit hits ih =>
    rw [takeEach, List.foldl_cons, ← takeEach]
    -- a degraded pass takes hits without a trace
    cases active with
    | none =>
      rw [Step.after_of_ok (take_none ..)]
      exact ih none h
    | some running =>
      obtain ⟨p, g⟩ := running
      have hstep : Gatherer.InStep j ((Gatherer.take s p hit.1 hit.2).after (g, k)) :=
        (Gatherer.conducts_inStep.take hit.1 hit.2 (g, k) ⟨h.1, h.2⟩).after
      rw [after_take]
      exact ih _ ⟨hstep.counts, hstep.levels⟩

/-- Counter and sink of a pass are in step if it does not start, and after each of its hits.  At its
end they are so exactly if all level transitions have come to their end, or the sink has taken
nothing since the last hit, as far as a counter of 64 bits can tell. -/
theorem counts_session (s : Settings) (opened : Except Fault Partition) (j : Journal) :
    (∀ fault k, start s opened j = .error fault k → j.Counts k) ∧
    ∀ pass k, start s opened j = .ok pass k → ∀ hits,
      j.Counts (takeEach hits (pass, k)).2 ∧
      ∃ pairs : List Handoff,
        (pass.session hits k).journal.sink.taken.toList =
          (takeEach hits (pass, k)).2.sink.taken.toList ++ pairs ∧
        (j.Counts (pass.session hits k).journal ↔
          (pass.session hits k).journal.statistics.levels =
            j.statistics.levels + .ofNat s.levels ∨ UInt64.ofNat pairs.length = 0) := by
  have hstart := start_outcome s opened j
  refine ⟨fun fault k hfails => ?_, fun pass k hstarts hits => ?_⟩
  · rcases hstart with ⟨fault', hsame⟩ | ⟨-, ⟨p, g, hsame⟩ | hsame⟩ <;> rw [hsame] at hfails
    · cases hfails
      exact Journal.counts_of_same rfl rfl
    · cases hfails
    · cases hfails
  · -- a pass that has started has handed nothing on and counted no pair and no level
    obtain ⟨hvalid, active, rfl, hsink, hforwarded, hlevels⟩ : s.validate = .ok () ∧
        ∃ active, pass = ⟨s, active⟩ ∧ k.sink = j.sink ∧
          k.statistics.forwarded = j.statistics.forwarded ∧
          k.statistics.levels = j.statistics.levels := by
      rcases hstart with ⟨fault', hsame⟩ | ⟨hvalid, ⟨p, g, hsame⟩ | hsame⟩ <;>
        rw [hsame] at hstarts
      · cases hstarts
      · cases hstarts
        exact ⟨hvalid, _, rfl, rfl, rfl, rfl⟩
      · cases hstarts
        exact ⟨hvalid, _, rfl, rfl, rfl, rfl⟩
    -- so counter and sink are in step up to the last hit, and what the end adds decides
    obtain ⟨active', k', htaken, hcounts, hlevels'⟩ := inStep_takeEach (s := s) hits active
      ⟨Journal.counts_of_same (congrArg Sink.taken hsink) hforwarded, hlevels⟩
    obtain ⟨pairs, haccounts⟩ := accounts_close s active' k'
    rw [journal_session, htaken]
    refine ⟨hcounts, pairs, haccounts.1, ?_⟩
    rw [hcounts.append_iff haccounts.1, ← hlevels']
    exact haccounts.forwarded_iff (Settings.levels_le_of_validate hvalid)

/-- One level, where two ancestors carry the key of the only hit, each beside a key of its own. -/
private def fork : Listing where
  keys := [(⟨0, 0⟩, 0, [3]), (⟨0, 1⟩, 0, [3]), (⟨0, 1⟩, 1, [4]), (⟨0, 2⟩, 0, [3]), (⟨0, 2⟩, 1, [5])]
  ancestors := [[⟨0, 1⟩, ⟨0, 2⟩]]
  mains := none
  refusals := []

/-- Handing on, to a sink that takes one pair: the hits, or the ancestors. -/
private def handing (mode : Mode) : Settings := { Settings.default with mode, forwardHits := true }

/-- The sink takes the first ancestor and refuses the second; the first one is not counted. -/
theorem not_counts_session_fork : ∃ pass k,
    start (handing .ancestors) (.ok fork.toPartition) (.start (.limited 1)) = .ok pass k ∧
    ¬(Journal.start (.limited 1)).Counts (pass.session [(⟨0, 0⟩, 0)] k).journal := by
  have hrun : (start (handing .ancestors) (.ok fork.toPartition)).Answers (.start (.limited 1))
      fun pass k =>
        ¬(Journal.start (.limited 1)).Counts (pass.session [(⟨0, 0⟩, 0)] k).journal := by
    decide +kernel
  exact Step.answers_iff.1 hrun

/-- A second hit that is refused is not counted, and does not bring the counter out of step; nor
does a start that fails. -/
theorem counts_session_fork :
    (∃ pass k, start (handing .hits) (.ok fork.toPartition) (.start (.limited 1)) = .ok pass k ∧
      (pass.session [(⟨0, 0⟩, 0), (⟨0, 0⟩, 1)] k).taken.map Except.isOk = [true, false] ∧
      (Journal.start (.limited 1)).Counts
        (pass.session [(⟨0, 0⟩, 0), (⟨0, 0⟩, 1)] k).journal) ∧
    ∃ fault k, start { handing .hits with levels := 0 } (.ok fork.toPartition)
      (.start (.limited 1)) = .error fault k ∧ (Journal.start (.limited 1)).Counts k := by
  have hrun : (start (handing .hits) (.ok fork.toPartition)).Answers (.start (.limited 1))
      fun pass k =>
        (pass.session [(⟨0, 0⟩, 0), (⟨0, 0⟩, 1)] k).taken.map Except.isOk = [true, false] ∧
        (pass.session [(⟨0, 0⟩, 0), (⟨0, 0⟩, 1)] k).journal.statistics.levels = 0 + .ofNat 1 := by
    decide +kernel
  have hfails : ((start { handing .hits with levels := 0 } (.ok fork.toPartition)).result
      (.start (.limited 1))).isOk = false := by
    decide +kernel
  obtain ⟨pass, k, hstart, htaken, hlevels⟩ := Step.answers_iff.1 hrun
  obtain ⟨fault, hfault⟩ := Step.isOk_eq_false_iff.1 hfails
  have hsession := (counts_session (handing .hits) (.ok fork.toPartition)
    (.start (.limited 1))).2 pass k hstart [(⟨0, 0⟩, 0), (⟨0, 0⟩, 1)]
  obtain ⟨-, pairs, -, hiff⟩ := hsession
  exact ⟨⟨pass, k, hstart, htaken, hiff.2 (.inl hlevels)⟩, fault, _, Step.result_eq_error.1 hfault,
    (counts_session _ _ _).1 fault _ (Step.result_eq_error.1 hfault)⟩

end Pass

end Lineage
