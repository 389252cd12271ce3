import Lineage.Proofs.Climbing
import Lineage.Proofs.PassConduct

/-!
# What a climb writes down

The journal after a climb, be the climb successful or not: which questions were asked, which pairs
the sink took, and what was counted.  A transition counts nothing before it has come to its end, and
then its level, its visits and its pairs at once.  What it did before it failed, it did all the
same.

## Main statements

- `Transition.walking_after_walk`: what holds all along the walk of a transition;
- `Transition.records_of_climb_ok`, `Transition.records_of_climb_error`: what a transition writes
  down, at its end and when it breaks off.
-/

namespace Lineage

open Step

/-- A question for keys at a level, at most. -/
def Request.KeysUpTo (most : Level) : Request → Prop
  | .keys level _ => level ≤ most
  | .scan _ => False

namespace Transition

variable {handingOn : Bool} {p : Partition} {level : Level} {below above : LinkTable}
  {j k : Journal} {fault : Fault}

/-! ## §1 The walk of a transition -/

/-- A walk is under way that began with a journal: it has asked for keys at the two levels, has
handed pairs on if it is one that does, and has kept count of them, but apart from the journal. -/
structure Walking (handingOn : Bool) (level : Level) (j : Journal) (t : Transition) : Prop where
  statistics : t.journal.statistics = j.statistics
  asked : ∃ asked, t.journal.requests.toList = j.requests.toList ++ asked ∧
    ∀ r ∈ asked, r.KeysUpTo (level + 1)
  taken : ∃ pairs : List Handoff, t.journal.sink.taken.toList = j.sink.taken.toList ++ pairs ∧
    t.handedOn = .ofNat pairs.length ∧ (handingOn = false → pairs = [])

theorem walking_setOut (handingOn : Bool) (level : Level) (below : LinkTable) (j : Journal) :
    Walking handingOn level (setOut level below j).journal (setOut level below j) where
  statistics := rfl
  asked := ⟨[], by simp, by simp⟩
  taken := ⟨[], by simp, rfl, fun _ => rfl⟩

/-- A pair that the sink takes is counted at once, and one that it refuses is not. -/
theorem Walking.handOn (pair : Handoff) :
    Heeds (Walking true level j) (fun _ => True) (onJournal (Journal.handOn pair) >>= fun _ =>
      modify fun t => { t with handedOn := t.handedOn + 1 }) := by
  intro t ht
  obtain ⟨pairs, htaken, hcount, -⟩ := ht.taken
  -- the pair is in the journal before it is counted, and a refusal comes before both
  cases hhand : Journal.handOn pair t.journal with
  | ok a journal =>
    have hleft := Journal.handOn_eq_ok hhand
    have hstep : onJournal (Journal.handOn pair) t = .ok a { t with journal } :=
      Step.bind_eq_ok.2 ⟨t, t, rfl, Step.inside_eq_ok.2 ⟨journal, hhand, rfl⟩⟩
    have hboth : (onJournal (Journal.handOn pair) >>= fun _ =>
        modify fun t => { t with handedOn := t.handedOn + 1 }) t =
          .ok () { t with handedOn := t.handedOn + 1, journal } := Step.bind_of_ok hstep
    subst hleft
    refine heedsAt_of_ok hboth ⟨ht.statistics, ht.asked, pairs ++ [pair], ?_, ?_, fun hoff => ?_⟩
    · rw [Array.toList_push, htaken, List.append_assoc]
    · rw [hcount, List.length_append, List.length_singleton, UInt64.ofNat_add]
      rfl
    · cases hoff
  | error fault journal =>
    have hleft := Journal.handOn_eq_error hhand
    have hstep : onJournal (Journal.handOn pair) t = .error fault { t with journal } :=
      Step.bind_eq_error.2 (.inr ⟨t, t, rfl, Step.inside_eq_error.2 ⟨journal, hhand, rfl⟩⟩)
    subst hleft
    exact heedsAt_of_error (Step.bind_of_error hstep) ⟨ht.statistics, ht.asked, ht.taken⟩ trivial

theorem Walking.keysOf {lower : Level} (hlower : lower ≤ level + 1) (doc : Doc) :
    Heeds (Walking handingOn level j) (fun _ => True) (keysOf p lower doc) := by
  apply heeds_keysOf
  · intro t ht
    obtain ⟨asked, hasked, hkeys⟩ := ht.asked
    -- the question is written down before the keys are read
    refine heedsAt_of_ok rfl ⟨ht.statistics, ⟨asked ++ [.keys lower doc], ?_, ?_⟩, ht.taken⟩
    · rw [Array.toList_push, hasked, List.append_assoc]
    · intro r hr
      rcases List.mem_append.1 hr with hr | hr
      · exact hkeys r hr
      · rw [List.mem_singleton.1 hr]
        exact hlower
  · exact fun _ _ => trivial

theorem spreads_walking (rows : List WordSet) :
    Spreads handingOn rows (Walking handingOn level j) (fun _ => True) where
  insert _ o b := heeds_onReached (LinkTable.heeds_insert o b)
    (fun _ _ => trivial) (fun _ _ ht _ => ⟨ht.statistics, ht.asked, ht.taken⟩) fun _ _ => trivial
  handOn hon pair := by
    subst hon
    exact Walking.handOn pair
  addRow _ row _ o := heeds_onReached (LinkTable.heeds_addRow o row)
    (fun _ _ => trivial) (fun _ _ ht _ => ⟨ht.statistics, ht.asked, ht.taken⟩) fun _ _ => trivial

theorem walking_visit (below : LinkTable) (doc : Doc) :
    Heeds (Walking handingOn level j) (fun _ => True) (visit handingOn p level below doc) :=
  heeds_visit_of (Walking.keysOf (Nat.le_succ level) doc) (Walking.keysOf (Nat.le_refl _) doc)
    fun _ _ => (spreads_walking _).spread doc _

theorem walking_after_walk (handingOn : Bool) (p : Partition) (level : Level) (below : LinkTable)
    (j : Journal) : Walking handingOn level (setOut level below j).journal
      ((walk handingOn p level below).after (setOut level below j)) := by
  have hwalk : Heeds (Walking handingOn level (setOut level below j).journal) (fun _ => True)
      (walk handingOn p level below) :=
    Visits.heeds_forEach (walking_visit below) fun _ _ => trivial
  exact (hwalk _ (walking_setOut handingOn level below j)).after

/-! ## §2 A whole transition -/

/-- What a transition has written down when it leaves a journal: its scan, then questions for keys,
and the pairs that the sink has taken. -/
structure Records (handingOn : Bool) (level : Level) (j k : Journal) (pairs : List Handoff) :
    Prop where
  asked : ∃ asked, k.requests.toList = j.requests.toList ++ .scan (level + 1) :: asked ∧
    ∀ r ∈ asked, r.KeysUpTo (level + 1)
  taken : k.sink.taken.toList = j.sink.taken.toList ++ pairs
  silent : handingOn = false → pairs = []

/-- From the invariant of the walk to the journal that it leaves. -/
theorem Walking.records {t : Transition}
    (h : Walking handingOn level (setOut level below j).journal t)
    (hrequests : k.requests = t.journal.requests) (hsink : k.sink = t.journal.sink) :
    ∃ pairs, Records handingOn level j k pairs ∧ t.handedOn = .ofNat pairs.length := by
  obtain ⟨asked, hasked, hkeys⟩ := h.asked
  obtain ⟨pairs, htaken, hcount, hsilent⟩ := h.taken
  refine ⟨pairs, ⟨⟨asked, ?_, hkeys⟩, ?_, hsilent⟩, hcount⟩
  · rw [hrequests, hasked, setOut, Array.toList_push, List.append_assoc]
    rfl
  · rw [hsink, htaken, setOut]

/-- At its end a transition counts its level, its visits and its pairs. -/
theorem records_of_climb_ok (h : climb handingOn p level below j = .ok above k) :
    ∃ pairs, Records handingOn level j k pairs ∧
      k.statistics = (j.statistics.addLevel (.ofNat (p.visitCount (level + 1)))).addForwarded
        (.ofNat pairs.length) := by
  obtain ⟨u, hwalk, -, hk⟩ := climb_eq_ok_iff.1 h
  have hleft := walking_after_walk handingOn p level below j
  rw [Step.after_of_ok hwalk] at hleft
  -- what was counted apart from the journal is the number of pairs
  obtain ⟨pairs, hrecords, hcount⟩ := hleft.records (k := k) (by rw [← hk]) (by rw [← hk])
  refine ⟨pairs, hrecords, ?_⟩
  rw [← hk, hleft.statistics, hcount, setOut]

/-- A transition that breaks off counts nothing, not even the pairs that the sink has taken. -/
theorem records_of_climb_error (h : climb handingOn p level below j = .error fault k) :
    k.statistics = j.statistics ∧ ∃ pairs, Records handingOn level j k pairs := by
  obtain ⟨u, hwalk, rfl⟩ := climb_eq_error_iff.1 h
  have hleft := walking_after_walk handingOn p level below j
  rw [Step.after_of_error hwalk] at hleft
  obtain ⟨pairs, hrecords, -⟩ := hleft.records rfl rfl
  exact ⟨hleft.statistics, pairs, hrecords⟩

end Transition

end Lineage
