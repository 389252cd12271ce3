import Lineage.Proofs.JoinCounts
import Lineage.Proofs.Sessions

/-!
# What resilience masks

A strict and a lenient start over the same partition differ in one case only: the settings are
valid and the partition could not be opened, or was found incomplete, with a configuration fault.
The strict start then fails with it, and the lenient one gives a pass that is degraded.

## Main statements

- `Pass.start_of_checked`, `Pass.start_of_fault`: what a start comes to under valid settings;
- `Pass.start_lenient`: a lenient start next to a strict one.
-/

namespace Lineage

/-- The settings under which no fault is masked. -/
def Settings.strict (s : Settings) : Settings := { s with resilient := false }

/-- The settings under which configuration faults of the partition are masked. -/
def Settings.lenient (s : Settings) : Settings := { s with resilient := true }

/-- Whether a fault can be masked: it is a configuration fault with which the partition did not open
or failed the check, and not one of the settings. -/
def Maskable (s : Settings) (opened : Except Fault Partition) (fault : Fault) : Prop :=
  s.validate = .ok () ∧ fault.isConfiguration = true ∧
    (opened = .error fault ∨ ∃ p, opened = .ok p ∧ p.check s = .error fault)

variable {s : Settings} {opened : Except Fault Partition} {fault : Fault} {p : Partition}

/-- Contexts do not matter to what is masked. -/
theorem Fault.isConfiguration_under (context : String) :
    (fault.under context).isConfiguration = fault.isConfiguration := rfl

/-- A partition fails if it does not open, or opens and is found incomplete. -/
theorem checked_eq_error : checked s opened = .error fault ↔
    opened = .error fault ∨ ∃ p, opened = .ok p ∧ p.check s = .error fault := by
  unfold checked
  rw [Step.except_bind_eq_error]
  -- what comes after the check cannot fail
  refine or_congr_right (exists_congr fun p => and_congr_right fun _ => ?_)
  rw [Step.except_bind_eq_error]
  constructor
  · rintro (hcheck | ⟨⟨⟩, -, hreturn⟩)
    · exact hcheck
    · cases hreturn
  · exact .inl

/-- A partition that passed the check has all that a gatherer needs. -/
theorem Gatherer.exists_start_of_check (h : p.check s = .ok ()) :
    ∃ g, Gatherer.start s p = .ok g := by
  obtain ⟨⟨⟩, -, hmains⟩ := Step.except_bind_eq_ok.1 h
  -- a gatherer only needs to know of main documents where it counts them
  split at hmains
  case isTrue => cases hmains
  case isFalse hneeds => exact ⟨_, if_neg hneeds⟩

/-- A complete partition is settled on, and the journal stays as it is. -/
theorem settle_of_checked (hvalid : s.validate = .ok ()) (h : checked s opened = .ok p)
    (j : Journal) : settle s opened j = .ok (some p) j := by
  rw [settle_of_valid hvalid, h]

namespace Pass

/-! ## §1 What a start comes to -/

theorem start_of_invalid (h : s.validate = .error fault) (opened : Except Fault Partition)
    (j : Journal) :
    start s opened j = .error fault j := by
  have hsettle : settle s opened j = .error fault j := by
    unfold settle
    rw [h]
    rfl
  exact Step.bind_of_error hsettle

/-- A pass over a complete partition starts and leaves the journal as it is. -/
theorem start_of_checked (hvalid : s.validate = .ok ()) (h : checked s opened = .ok p)
    (j : Journal) :
    ∃ g, Gatherer.start s p = .ok g ∧ start s opened j = .ok ⟨s, some (p, g)⟩ j := by
  obtain ⟨g, hg⟩ := Gatherer.exists_start_of_check (checked_eq_ok.1 h).2
  refine ⟨g, hg, (Step.bind_of_ok (settle_of_checked hvalid h j)).trans ?_⟩
  dsimp only
  rw [hg]
  rfl

/-- If the partition fails, the fault is masked or passed on. -/
theorem start_of_fault (hvalid : s.validate = .ok ()) (h : checked s opened = .error fault)
    (j : Journal) :
    start s opened j =
      if s.resilient ∧ fault.isConfiguration then
        .ok ⟨s, none⟩ { j with statistics := j.statistics.addDegraded }
      else .error fault j := by
  have hsettle := settle_of_valid hvalid opened j
  rw [h] at hsettle
  dsimp only at hsettle
  -- the pass that is settled on without a partition is the degraded one
  split
  case isTrue hmasked =>
    rw [if_pos hmasked] at hsettle
    exact Step.bind_of_ok hsettle
  case isFalse hpassed =>
    rw [if_neg hpassed] at hsettle
    exact Step.bind_of_error hsettle

/-- A start fails and leaves the journal as it is, or gives a pass under valid settings, which has a
gatherer or is degraded. -/
theorem start_outcome (s : Settings) (opened : Except Fault Partition) (j : Journal) :
    (∃ fault, start s opened j = .error fault j) ∨
      s.validate = .ok () ∧ ((∃ p g, start s opened j = .ok ⟨s, some (p, g)⟩ j) ∨
        start s opened j = .ok ⟨s, none⟩ { j with statistics := j.statistics.addDegraded }) := by
  -- the settings are looked at first, then the partition, and the masking last
  cases hvalid : s.validate with
  | error fault => exact .inl ⟨fault, start_of_invalid hvalid opened j⟩
  | ok a =>
    cases hchecked : checked s opened with
    | ok p =>
      obtain ⟨g, -, hstart⟩ := start_of_checked hvalid hchecked j
      exact .inr ⟨rfl, .inl ⟨p, g, hstart⟩⟩
    | error fault =>
      have hstart := start_of_fault hvalid hchecked j
      split at hstart
      case isTrue => exact .inr ⟨rfl, .inr hstart⟩
      case isFalse => exact .inl ⟨fault, hstart⟩

/-! ## §2 Strict and lenient -/

/-- Resilience masks the configuration faults of a partition and nothing else.  Where the strict
start succeeds, so does the lenient one, and both passes come to the same with all hits.  Where it
fails, the lenient one fails alike unless the fault can be masked; it then gives a degraded pass,
counted once, which takes all hits, hands on and counts nothing.  A pass that has a partition to run
over always starts. -/
theorem start_lenient (s : Settings) (opened : Except Fault Partition) (j : Journal) :
    (∀ pass k, start s.strict opened j = .ok pass k → pass.isDegraded = false ∧
      ∃ pass', start s.lenient opened j = .ok pass' k ∧ pass'.isDegraded = false ∧
        ∀ hits j', pass'.session hits j' = pass.session hits j') ∧
    (∀ fault k, start s.strict opened j = .error fault k →
      (¬Maskable s opened fault → start s.lenient opened j = .error fault k) ∧
      (Maskable s opened fault → ∃ pass,
        start s.lenient opened j =
          .ok pass { j with statistics := j.statistics.addDegraded } ∧
        pass.isDegraded = true ∧ ∀ hits j', pass.session hits j' =
          ⟨hits.map fun _ => .ok (), .ok .empty, j'⟩)) ∧
    (∀ t p k, settle t opened j = .ok (some p) k → ∃ g, Gatherer.start t p = .ok g) := by
  have hstarts (t : Settings) (p : Partition) (k : Journal)
      (hsettle : settle t opened j = .ok (some p) k) : ∃ g, Gatherer.start t p = .ok g :=
    Gatherer.exists_start_of_check (settle_eq_ok hsettle).2.2
  -- whether faults are masked plays no part in what is found out before a pass starts
  cases hvalid : s.validate with
  | error invalid =>
    have hstrict := start_of_invalid (s := s.strict) hvalid opened j
    have hlenient := start_of_invalid (s := s.lenient) hvalid opened j
    refine ⟨fun pass k hstart => ?_, fun fault k hstart => ?_, hstarts⟩
    · cases hstrict.symm.trans hstart
    · cases hstrict.symm.trans hstart
      refine ⟨fun _ => hlenient, fun hmaskable => ?_⟩
      cases hvalid.symm.trans hmaskable.1
  | ok valid =>
    cases hchecked : checked s opened with
    | ok p =>
      obtain ⟨g, hg, hstrict⟩ := start_of_checked (s := s.strict) hvalid hchecked j
      obtain ⟨g', hg', hlenient⟩ := start_of_checked (s := s.lenient) hvalid hchecked j
      obtain rfl : g = g' := Except.ok.inj (hg.symm.trans hg')
      refine ⟨fun pass k hstart => ?_, fun fault k hstart => ?_, hstarts⟩
      · cases hstrict.symm.trans hstart
        refine ⟨rfl, _, hlenient, rfl, fun hits j' => ?_⟩
        exact (session_resilient s true _ hits j').trans (session_resilient s false _ hits j').symm
      · cases hstrict.symm.trans hstart
    | error found =>
      have hstrict : start s.strict opened j = .error found j :=
        (start_of_fault (s := s.strict) hvalid hchecked j).trans (if_neg fun h => nomatch h.1)
      have hlenient := start_of_fault (s := s.lenient) hvalid hchecked j
      refine ⟨fun pass k hstart => ?_, fun fault k hstart => ?_, hstarts⟩
      · cases hstrict.symm.trans hstart
      · cases hstrict.symm.trans hstart
        -- the fault is known to come from the partition, so only its kind is left to decide
        constructor
        · intro hnot
          rw [hlenient, if_neg]
          rintro ⟨-, hconfiguration⟩
          exact hnot ⟨hvalid, hconfiguration, checked_eq_error.1 hchecked⟩
        · intro hmaskable
          rw [if_pos ⟨rfl, hmaskable.2.1⟩] at hlenient
          exact ⟨⟨s.lenient, none⟩, hlenient, rfl, session_none⟩

/-- A partition that does not open since a key column names no field. -/
def unopened : Except Fault Partition :=
  .error ((Fault.configuration (.unknownField "parent")).under "Failed to open the join chain")

theorem start_lenient_unopened :
    (∃ pass, start Settings.default.lenient (.ok family.toPartition) (.start .unlimited) =
      .ok pass (.start .unlimited) ∧ pass.isDegraded = false) ∧
    (∃ pass k, start Settings.default.lenient unopened (.start .unlimited) = .ok pass k ∧
      k.statistics.degraded = 1 ∧ pass.session [(⟨0, 0⟩, 0)] k = ⟨[.ok ()], .ok .empty, k⟩) ∧
    start { Settings.default with levels := 0 }.lenient unopened (.start .unlimited) =
      .error (.configuration .noLevel) (.start .unlimited) := by
  refine ⟨?_, ?_, ?_⟩
  · obtain ⟨-, pass, hstart, hrunning, -⟩ :=
      (start_lenient .default (.ok family.toPartition) (.start .unlimited)).1 _ _ rfl
    exact ⟨pass, hstart, hrunning⟩
  · have hmaskable : Maskable .default unopened
        ((Fault.configuration (.unknownField "parent")).under "Failed to open the join chain") :=
      ⟨rfl, Fault.isConfiguration_under _, .inl rfl⟩
    obtain ⟨pass, hstart, -, hsession⟩ :=
      ((start_lenient .default unopened (.start .unlimited)).2.1 _ _ rfl).2 hmaskable
    exact ⟨pass, _, hstart, rfl, hsession _ _⟩
  · refine ((start_lenient _ unopened (.start .unlimited)).2.1 _ _ rfl).1 fun hmaskable => ?_
    cases hmaskable.1

end Pass

end Lineage
