import Lineage.Proofs.PassConduct
import Lineage.Proofs.Sessions

/-!
# What a pass asks its partition

The questions of a pass stay within its settings: keys are asked for at the levels from 0 to the
last one, scans at the levels from 1 on, and where main documents are counted directly there are no
questions at all.  This holds for all hits, and whether or not something fails on the way.  If the
partition answers all questions within the settings, the pass has no fault that tells a
configuration problem, except one with which the sink refuses a pair.

## Main statements

- `Gatherer.heeds_take`, `Facts.heeds_tally`: what is asked for a hit, and on the way up;
- `Pass.session_follows`: what is asked in a whole session.
-/

namespace Lineage

open Step

/-- The fault does not tell a configuration problem. -/
def NotConfiguration (fault : Fault) : Prop := fault.isConfiguration = false

/-- The questions within some settings. -/
def Settings.Covers (s : Settings) : Request → Prop
  | .keys level _ => s.isDirect = false ∧ level ≤ s.levels
  | .scan level => s.isDirect = false ∧ 1 ≤ level ∧ level ≤ s.levels

/-- The partition answers the questions within some settings, or fails for another reason than
that something is not configured. -/
structure Partition.Serves (p : Partition) (s : Settings) : Prop where
  keys : ∀ level doc fault, s.Covers (.keys level doc) → p.keys level doc = .error fault →
    NotConfiguration fault
  scan : ∀ level fault, s.Covers (.scan level) → (p.scan level).ending = .error fault →
    NotConfiguration fault

/-! ## §1 Tables -/

/-- Outgrowing a limit is not a configuration problem. -/
theorem Outgrown.notConfiguration {fault : Fault} (h : Outgrown fault) : NotConfiguration fault := by
  obtain ⟨problem, rfl⟩ := h
  rfl

/-! ## §2 Journals -/

/-- A sink has no fault but those with which it refuses. -/
theorem Sink.heeds_offer (verdict : Array Handoff → Handoff → Option Fault) (pair : Handoff) :
    Heeds (fun sink => sink.verdict = verdict)
      (fun fault => ∃ offered pair, verdict offered pair = some fault) (offer pair) := by
  apply heeds_get_bind
  intro sink hsink
  -- whatever the sink has taken meanwhile, it still decides alike
  cases hverdict : sink.verdict sink.offered pair with
  | none => exact heedsAt_of_ok rfl hsink
  | some fault =>
    exact heedsAt_of_error rfl hsink ⟨_, _, hsink ▸ hverdict⟩

namespace Journal

/-- One journal follows another: it has been asked the same, and then only questions within some
settings, and its sink decides alike. -/
structure Follows (s : Settings) (base j : Journal) : Prop where
  asked : ∃ asked, j.requests.toList = base.requests.toList ++ asked ∧ ∀ r ∈ asked, s.Covers r
  verdict : j.sink.verdict = base.sink.verdict

/-- The faults that a pass may have: those that do not tell a configuration problem, and those with
which the sink refuses a pair. -/
def Excuses (base : Journal) (fault : Fault) : Prop :=
  NotConfiguration fault ∨ ∃ offered pair, base.sink.verdict offered pair = some fault

variable {s : Settings} {base : Journal}

theorem Follows.refl (s : Settings) (base : Journal) : base.Follows s base where
  asked := ⟨[], by simp, by simp⟩
  verdict := rfl

theorem Follows.trans {j k : Journal} (h : base.Follows s j) (h' : j.Follows s k) :
    base.Follows s k where
  asked := by
    obtain ⟨asked, hasked, hcovers⟩ := h.asked
    obtain ⟨asked', hasked', hcovers'⟩ := h'.asked
    -- the questions of both come one after the other
    refine ⟨asked ++ asked', by rw [hasked', hasked, List.append_assoc], fun r hr => ?_⟩
    exact (List.mem_append.1 hr).elim (hcovers r) (hcovers' r)
  verdict := h'.verdict.trans h.verdict

theorem heeds_ask {request : Request} (h : s.Covers request) :
    Heeds (base.Follows s) base.Excuses (ask request) := by
  apply heeds_modify
  rintro j ⟨⟨asked, hasked, hcovers⟩, hverdict⟩
  refine ⟨⟨asked ++ [request], ?_, ?_⟩, hverdict⟩
  · rw [Array.toList_push, hasked, List.append_assoc]
  · intro r hr
    rcases List.mem_append.1 hr with hr | hr
    · exact hcovers r hr
    · rwa [List.mem_singleton.1 hr]

theorem heeds_count (change : Statistics → Statistics) :
    Heeds (base.Follows s) base.Excuses (count change) :=
  heeds_modify fun _ hj => ⟨hj.asked, hj.verdict⟩

/-- Pairs are handed on or refused by the sink. -/
theorem heeds_handOn (pair : Handoff) : Heeds (base.Follows s) base.Excuses (handOn pair) := by
  apply heeds_get_bind
  intro j hj
  apply HeedsAt.inside (Sink.heeds_offer base.sink.verdict pair j.sink hj.verdict)
  · intro sink hsink
    exact ⟨hj.asked, hsink⟩
  · exact fun fault hrefused => .inr hrefused

end Journal

variable {s : Settings} {p : Partition} {base : Journal}

/-! ## §3 Gathering -/

namespace Gatherer

/-- A journal is followed while hits are gathered, and only where levels are climbed there are
links. -/
structure Follows (s : Settings) (base : Journal) (x : Gatherer × Journal) : Prop where
  journal : base.Follows s x.2
  climbs : ∀ table, x.1.facts = .links table → s.isDirect = false

/-- A gatherer starts with links exactly where levels are climbed. -/
theorem follows_of_start {g : Gatherer} {j : Journal} (hstart : start s p = .ok g)
    (hj : base.Follows s j) : Follows s base (g, j) where
  journal := hj
  climbs table hfacts := by
    rw [eq_of_start hstart] at hfacts
    unfold factsFor at hfacts
    -- main documents are no links
    split at hfacts
    case isTrue => cases hfacts
    case isFalse hclimbs => exact Bool.eq_false_iff.2 hclimbs

theorem heeds_handOn (b : Bucket) (doc : Doc) :
    Heeds (Follows s base) base.Excuses (handOn b doc) := by
  rintro ⟨g, j⟩ hx
  apply heedsAt_handOn
  have hpass : Heeds (base.Follows s) base.Excuses
      (Journal.handOn ⟨b, doc⟩ >>= fun _ => Journal.count (·.addForwarded 1)) :=
    (Journal.heeds_handOn _).bind fun _ => Journal.heeds_count _
  have hstep := hpass j hx.journal
  exact ⟨⟨hstep.after, hx.climbs⟩, hstep.faults⟩

/-- The keys at level 0 are asked for where levels are climbed. -/
theorem heedsAt_ownKeys_of_links (hserves : p.Serves s) {g : Gatherer} {j : Journal}
    (hx : Follows s base (g, j)) (hclimbs : s.isDirect = false) (doc : Doc) :
    HeedsAt (Follows s base) base.Excuses (ownKeys p doc) (g, j) := by
  -- level 0 is there however few levels there are
  have hcovers : s.Covers (.keys 0 doc) := ⟨hclimbs, Nat.zero_le _⟩
  have hstep := Journal.heeds_ask hcovers j hx.journal
  exact heedsAt_ownKeys ⟨⟨hstep.after, hx.climbs⟩, hstep.faults⟩ fun fault h =>
    .inl (hserves.keys 0 doc fault hcovers h)

theorem conducts_follows (hserves : p.Serves s) : Conducts p (Follows s base) base.Excuses where
  own g g' j hx hshape := ⟨hx.journal, fun table hlinks => by
    obtain ⟨table', hfacts⟩ := hshape table hlinks
    exact hx.climbs table' hfacts⟩
  outgrown fault h := .inl h.notConfiguration
  handOn := heeds_handOn
  ownKeys doc g j table hfacts hx :=
    heedsAt_ownKeys_of_links hserves hx (hx.climbs table hfacts) doc

/-- Taking a hit asks for keys at level 0 at most, and only where levels are climbed. -/
theorem heeds_take (hserves : p.Serves s) (hit : Doc) (b : Bucket) :
    Heeds (Follows s base) base.Excuses (take s p hit b) :=
  (conducts_follows hserves).take hit b

end Gatherer

/-! ## §4 Climbing -/

namespace Transition

/-- A journal is followed while a transition is under way. -/
def Follows (s : Settings) (base : Journal) (t : Transition) : Prop := base.Follows s t.journal

theorem spreads_follows (handingOn : Bool) (rows : List WordSet) :
    Spreads handingOn rows (Follows s base) base.Excuses where
  insert _ o b := heeds_onReached (LinkTable.heeds_insert o b) (fun _ _ => trivial)
    (fun _ _ ht _ => ht) fun _ h => .inl h.notConfiguration
  handOn _ pair :=
    (heeds_onJournal (Journal.heeds_handOn pair) (fun _ ht => ht) fun _ _ _ hj => hj).bind fun _ =>
      heeds_modify fun _ ht => ht
  addRow _ row _ o := heeds_onReached (LinkTable.heeds_addRow o row) (fun _ _ => trivial)
    (fun _ _ ht _ => ht) fun _ h => .inl h.notConfiguration

theorem heeds_keysOf_of_covers (hserves : p.Serves s) {level : Level} {doc : Doc}
    (hcovers : s.Covers (.keys level doc)) :
    Heeds (Follows s base) base.Excuses (keysOf p level doc) := by
  apply heeds_keysOf
  · exact heeds_onJournal (Journal.heeds_ask hcovers) (fun _ ht => ht) fun _ _ _ hj => hj
  · exact fun fault h => .inl (hserves.keys level doc fault hcovers h)

/-- A visit on the way from a level to the next asks for keys at these two. -/
theorem heeds_visit (hserves : p.Serves s) (hclimbs : s.isDirect = false) {level : Level}
    (hlevel : level < s.levels) (handingOn : Bool) (below : LinkTable) (doc : Doc) :
    Heeds (Follows s base) base.Excuses (visit handingOn p level below doc) :=
  heeds_visit_of (heeds_keysOf_of_covers hserves ⟨hclimbs, Nat.le_of_lt hlevel⟩)
    (heeds_keysOf_of_covers hserves ⟨hclimbs, hlevel⟩) fun _ _ =>
      (spreads_follows handingOn _).spread doc _

/-- Climbing to the next level asks for a scan of that level. -/
theorem heeds_climb (hserves : p.Serves s) (hclimbs : s.isDirect = false) {level : Level}
    (hlevel : level < s.levels) (handingOn : Bool) (below : LinkTable) :
    Heeds (base.Follows s) base.Excuses (climb handingOn p level below) := by
  have hscan : s.Covers (.scan (level + 1)) := ⟨hclimbs, Nat.le_add_left 1 level, hlevel⟩
  refine (Journal.heeds_ask hscan).bind fun _ => heeds_get_bind fun j hj => ?_
  -- the scan is one level up, and its visits ask for keys below and above it
  have hvisits : Heeds (Follows s base) base.Excuses
      ((p.scan (level + 1)).withoutRepeats.forEach (visit handingOn p level below)) :=
    Visits.heeds_forEach (heeds_visit hserves hclimbs hlevel handingOn below)
      fun fault h => .inl (hserves.scan (level + 1) fault hscan h)
  have hstart : Follows s base ⟨.empty below.limit, 0, j⟩ := hj
  have hwalk := (hvisits.bind fun _ => heeds_get) _ hstart
  have hinside : HeedsAt (base.Follows s) base.Excuses (Step.inside _ Transition.journal _) j :=
    hwalk.inside (fun _ ht => ht) fun _ h => h
  apply hinside.bind
  intro done k _ hk
  exact ((Journal.heeds_count _).bind fun _ => (Journal.heeds_count _).bind fun _ =>
    heeds_pure _) k hk

end Transition

namespace Ascent

theorem heeds_climbFrom (hserves : p.Serves s) (hclimbs : s.isDirect = false) {n level : Nat}
    (hlevels : level + n ≤ s.levels) (handingOn : Bool) (table : LinkTable) :
    Heeds (base.Follows s) base.Excuses (climbFrom handingOn p n level table) := by
  -- `n` levels are left to climb, and together with those below they are not more than there are
  induction n generalizing level table with
  | zero =>
    exact heeds_ofExcept fun fault h =>
      .inl (LinkTable.outgrown_of_converse h).notConfiguration
  | succ n ih =>
    unfold climbFrom
    split
    case isTrue => exact heeds_pure _
    case isFalse =>
      have hlevel : level < s.levels := by omega
      have habove : level + 1 + n ≤ s.levels := by omega
      exact (Transition.heeds_climb hserves hclimbs hlevel _ table).bind fun above =>
        ih habove above

theorem heeds_run (hserves : p.Serves s) (hclimbs : s.isDirect = false) (table : LinkTable) :
    Heeds (base.Follows s) base.Excuses (run s p table) := by
  unfold run
  split
  case isTrue => exact heeds_pure table
  case isFalse =>
    refine (heeds_ofExcept fun fault h => ?_).bind fun byOrdinal =>
      heeds_climbFrom hserves hclimbs (Nat.le_of_eq (Nat.zero_add _)) _ byOrdinal
    exact .inl (LinkTable.outgrown_of_converse h).notConfiguration

end Ascent

/-- Levels are climbed where there are links, and then only up to the last level. -/
theorem Facts.heeds_tally (hserves : p.Serves s) {facts : Facts}
    (hclimbs : ∀ table, facts = .links table → s.isDirect = false) :
    Heeds (base.Follows s) base.Excuses (facts.tally s p) := by
  cases facts with
  | documents seen => exact heeds_pure _
  | links table =>
    simp only [Facts.tally]
    split
    case isTrue => exact heeds_pure _
    case isFalse =>
      exact (Ascent.heeds_run hserves (hclimbs table rfl) table).bind fun _ => heeds_pure _

/-! ## §5 Sessions -/

/-- Where main documents are counted directly, nothing is asked. -/
theorem Journal.Follows.requests_of_isDirect {j : Journal} (h : base.Follows s j)
    (hdirect : s.isDirect = true) : j.requests = base.requests := by
  obtain ⟨asked, hasked, hcovers⟩ := h.asked
  have hnone : asked = [] := by
    apply List.eq_nil_iff_forall_not_mem.2
    intro r hr
    -- every question within the settings is one of a climb
    have hclimbs : s.isDirect = false := by
      have hcovered := hcovers r hr
      cases r with
      | keys level doc => exact hcovered.1
      | scan level => exact hcovered.1
    cases hdirect.symm.trans hclimbs
  -- the journal has only grown by these questions
  rw [hnone, List.append_nil] at hasked
  exact Array.toList_inj.1 hasked

/-- A session follows a journal, and has no faults but those that are excused. -/
structure Session.Follows (s : Settings) (base : Journal) (session : Session) : Prop where
  journal : base.Follows s session.journal
  taken : ∀ fault, .error fault ∈ session.taken → base.Excuses fault
  ending : ∀ fault, session.ending = .error fault → base.Excuses fault

namespace Pass

theorem heedsAt_close (hserves : p.Serves s) {g : Gatherer} {j : Journal}
    (hx : Gatherer.Follows s base (g, j)) :
    HeedsAt (base.Follows s) base.Excuses (⟨s, some (p, g)⟩ : Pass).close j := by
  -- the hits are counted first, and that leaves questions and sink alone
  have hfacts : Heeds (base.Follows s) base.Excuses (g.facts.tally s p) :=
    Facts.heeds_tally hserves hx.climbs
  have hcounted := Journal.heeds_count (·.addCollected (.ofNat g.hits)) j hx.journal
  exact (hfacts _ hcounted.after).congr rfl

/-- Whatever the hits, and whatever becomes of them, a session stays within the settings. -/
theorem session_follows (hserves : p.Serves s) (hits : List (Doc × Bucket)) {g : Gatherer}
    {j : Journal} (hx : Gatherer.Follows s base (g, j)) :
    ((⟨s, some (p, g)⟩ : Pass).session hits j).Follows s base := by
  -- hit by hit, from whatever gatherer and journal the hit before it has left
  induction hits generalizing g j with
  | nil =>
    have hclose := heedsAt_close hserves hx
    exact ⟨hclose.after, fun fault hfault => absurd hfault List.not_mem_nil, hclose.faults⟩
  | cons entry hits ih =>
    have htake := Gatherer.heeds_take hserves entry.1 entry.2 _ hx
    -- the session goes on from what the hit leaves, be it taken or not
    have hrest := ih htake.after
    rw [session, after_take, result_take]
    refine ⟨hrest.journal, fun fault hfault => ?_, hrest.ending⟩
    rcases List.mem_cons.1 hfault with hfirst | hlater
    · exact htake.faults fault hfirst.symm
    · exact hrest.taken fault hlater

end Pass

end Lineage
