import Lineage.Gatherer
import Lineage.Proofs.Journal
import Lineage.Proofs.Sightings
import Mathlib.Logic.Basic

/-!
# The outcomes of taking a hit

Taking a hit can go three ways: handing it on fails; it is passed over, because it has no main
document or its document was seen just before; or its document is entered into the facts, which
may fail in turn.  `take_outcome` says so once, and everything about runs of hits follows from it,
whether the caller stops at a fault or goes on.

## Main statements

- `Gatherer.after_note`, `Gatherer.note_eq_ok`: noting a document, with or without a fault;
- `Gatherer.take_outcome`, `Gatherer.take_eq_ok`: the outcomes of one hit;
- `Gatherer.takeEach`: a run of hits whose caller goes on after faults.
-/

namespace Lineage

/-! ## §1 The document seen last -/

namespace Recent

/-- A document is the one seen last, and was seen for the bucket. -/
def Has (r : Recent) (doc : Doc) (b : Bucket) : Prop := r.doc = some doc ∧ b ∈ r.buckets

instance (r : Recent) (doc : Doc) (b : Bucket) : Decidable (r.Has doc b) :=
  inferInstanceAs (Decidable (_ ∧ _))

theorem not_has_empty (doc : Doc) (b : Bucket) : ¬empty.Has doc b := by
  simp [Has, empty]

theorem sight_of_has {r : Recent} {doc : Doc} {b : Bucket} (h : r.Has doc b) :
    r.sight doc b = (false, r) := by
  obtain ⟨hdoc, hb⟩ := h
  simp [sight, hdoc, hb]

/-- A new document or bucket is remembered; of what was remembered before, only the buckets of the
same document are. -/
theorem sight_of_not_has {r : Recent} {doc : Doc} {b : Bucket} (h : ¬r.Has doc b) :
    ∃ r', r.sight doc b = (true, r') ∧
      ∀ d b', r'.Has d b' ↔ d = doc ∧ (b' = b ∨ r.Has doc b') := by
  unfold sight
  -- the same document in another bucket adds it; another document replaces all
  by_cases hdoc : r.doc = some doc
  · have hb : b ∉ r.buckets := fun hb => h ⟨hdoc, hb⟩
    refine ⟨⟨some doc, r.buckets ++ [b]⟩, by simp [hdoc, hb], fun d b' => ?_⟩
    simp [Has, hdoc, or_comm, eq_comm]
  · refine ⟨⟨some doc, [b]⟩, by simp [hdoc], fun d b' => ?_⟩
    simp [Has, hdoc, eq_comm]

end Recent

namespace Gatherer

variable {s : Settings} {p : Partition} {hit : Doc} {b : Bucket}

/-! ## §2 The parts of a hit -/

/-- What a gatherer is before its first hit. -/
theorem eq_of_start {g : Gatherer} (h : start s p = .ok g) :
    g = ⟨factsFor s, forwardingFor s, .empty, 0⟩ := by
  unfold start at h
  split at h
  case isTrue => cases h
  case isFalse => exact (Except.ok.inj h).symm

theorem handOn_apply (b : Bucket) (doc : Doc) (g : Gatherer) (j : Journal) :
    handOn b doc (g, j) = Step.inside j (fun j => (g, j))
      (Journal.handOn ⟨b, doc⟩ >>= fun _ => Journal.count (·.addForwarded 1)) (g, j) := rfl

/-- Note a document for a bucket, and hand it on if it is new and this is wanted.  Both memories of
what was handed on are kept in this way. -/
def note (seen : Sightings) (put : Sightings → Gatherer) (wanted : Prop) [Decidable wanted]
    (b : Bucket) (doc : Doc) (j : Journal) : Step (Gatherer × Journal) Unit :=
  Step.inside seen (fun seen => (put seen, j)) (Sightings.insert b doc) >>= fun fresh =>
    if fresh ∧ wanted then handOn b doc else pure ()

/-- Where hits are not handed on, there is nothing to do. -/
theorem forwardHit_of_ne {g : Gatherer} (h : ∀ seen, g.forwarding ≠ .hits seen) (b : Bucket)
    (hit : Doc) (j : Journal) : forwardHit b hit (g, j) = .ok () (g, j) := by
  obtain ⟨facts, forwarding, recent, hits⟩ := g
  cases forwarding with
  | off => rfl
  | mainDocuments => rfl
  | hits seen => exact absurd rfl (h seen)

/-- Where hits are handed on, this one is noted, and handed on if it is new. -/
theorem forwardHit_of_hits {g : Gatherer} {seen : Sightings} (h : g.forwarding = .hits seen)
    (b : Bucket) (hit : Doc) (j : Journal) :
    forwardHit b hit (g, j) =
      note seen (fun seen => { g with forwarding := .hits seen }) True b hit j (g, j) := by
  -- handing on is always wanted here, so only newness is left to decide
  have hnote : note seen (fun seen => { g with forwarding := .hits seen }) True b hit j =
      Step.inside seen (fun seen => ({ g with forwarding := .hits seen }, j))
        (Sightings.insert b hit) >>= fun fresh => if fresh then handOn b hit else pure () := by
    simp [note]
  rw [hnote]
  obtain ⟨facts, forwarding, recent, hits⟩ := g
  cases h
  rfl

/-- Where main documents are counted, the document is noted, and handed on if it is new and main
documents are handed on. -/
theorem enter_of_documents {g : Gatherer} {seen : Sightings} (h : g.facts = .documents seen)
    (b : Bucket) (doc : Doc) (j : Journal) :
    enter p b doc (g, j) = note seen (fun seen => { g with facts := .documents seen })
      (g.forwarding = .mainDocuments) b doc j (g, j) := by
  obtain ⟨facts, forwarding, recent, hits⟩ := g
  cases h
  rfl

/-- Where levels are climbed, the keys of the document are asked for and linked. -/
theorem enter_of_links {g : Gatherer} {table : LinkTable} (h : g.facts = .links table)
    (b : Bucket) (doc : Doc) (j : Journal) :
    enter p b doc (g, j) = (ownKeys p doc >>= fun keys => keys.forM (link b)) (g, j) := by
  obtain ⟨facts, forwarding, recent, hits⟩ := g
  cases h
  rfl

theorem ownKeys_apply (doc : Doc) (g : Gatherer) (j : Journal) :
    ownKeys p doc (g, j) = (Step.ofExcept (p.keys 0 doc) : Step (Gatherer × Journal) _)
      (g, { j with requests := j.requests.push (.keys 0 doc) }) := rfl

theorem link_of_links {g : Gatherer} {table : LinkTable} (h : g.facts = .links table)
    (b : Bucket) (o : Ordinal) (j : Journal) :
    link b o (g, j) = (discard (Step.inside table
      (fun table => ({ g with facts := .links table }, j)) (LinkTable.insert b o)) :
        Step (Gatherer × Journal) Unit) (g, j) := by
  obtain ⟨facts, forwarding, recent, hits⟩ := g
  cases h
  rfl

theorem link_of_documents {g : Gatherer} {seen : Sightings} (h : g.facts = .documents seen)
    (b : Bucket) (o : Ordinal) (j : Journal) : link b o (g, j) = .ok () (g, j) := by
  obtain ⟨facts, forwarding, recent, hits⟩ := g
  cases h
  rfl

/-! ## §3 What the parts leave -/

theorem after_handOn (b : Bucket) (doc : Doc) (x : Gatherer × Journal) :
    ((handOn b doc).after x).1 = x.1 := by
  obtain ⟨g, j⟩ := x
  rw [Step.after_congr (handOn_apply b doc g j), Step.after_inside]

theorem moves_after_handOn (b : Bucket) (doc : Doc) (x : Gatherer × Journal) :
    ∃ pairs, x.2.sink.Moves ((handOn b doc).after x).2.sink [⟨b, doc⟩] pairs := by
  obtain ⟨g, j⟩ := x
  rw [Step.after_congr (handOn_apply b doc g j), Step.after_inside]
  obtain ⟨pairs, hmoves⟩ := Journal.moves_after_handOn ⟨b, doc⟩ j
  refine ⟨pairs, ?_⟩
  -- the pair is counted last, and that leaves the sink alone
  apply Step.after_bind (fun k : Journal => j.sink.Moves k.sink [⟨b, doc⟩] pairs) hmoves
  intro _ k _ hk
  exact hk

theorem handOn_eq_ok {b : Bucket} {doc : Doc} {g g' : Gatherer} {j j' : Journal} {a : Unit}
    (h : handOn b doc (g, j) = .ok a (g', j')) :
    g' = g ∧ j'.sink.taken.toList = j.sink.taken.toList ++ [⟨b, doc⟩] := by
  rw [handOn_apply] at h
  obtain ⟨k, hpass, hput⟩ := Step.inside_eq_ok.1 h
  obtain ⟨rfl, rfl⟩ := Prod.mk.inj hput
  obtain ⟨⟨⟩, k', hhand, hcount⟩ := Step.bind_eq_ok.1 hpass
  -- counting the pair leaves the sink as it is
  rw [Journal.count_eq_ok hcount, Journal.handOn_eq_ok hhand]
  exact ⟨rfl, by simp⟩

/-- What an attempt to note a document does: the memory gains the pair or nothing, and the pair is
offered only if it is new and is noted by then. -/
structure Noting (wanted : Prop) (b : Bucket) (doc : Doc) (seen seen' : Sightings)
    (sink sink' : Sink) (offers pairs : List Handoff) : Prop where
  gains : (seen.Gains seen' fun _ _ => False) ∨
    seen.Gains seen' fun b' doc' => b' = b ∧ doc' = doc
  moves : sink.Moves sink' offers pairs
  offers : offers = [] ∨ offers = [⟨b, doc⟩] ∧ wanted ∧ ¬seen.Has b doc ∧ seen'.Has b doc

/-- Noting a document, whether or not it fails. -/
theorem after_note (seen : Sightings) (put : Sightings → Gatherer) (wanted : Prop)
    [Decidable wanted] (b : Bucket) (doc : Doc) (g : Gatherer) (j : Journal) :
    ∃ seen' offers pairs, ((note seen put wanted b doc j).after (g, j)).1 = put seen' ∧
      Noting wanted b doc seen seen' j.sink ((note seen put wanted b doc j).after (g, j)).2.sink
        offers pairs := by
  have hgains := Sightings.gains_after_insert seen b doc
  unfold note
  cases hinsert : Sightings.insert b doc seen with
  -- there was no room for the pair, so nothing is offered
  | error fault seen' =>
    rw [Step.after_of_error hinsert] at hgains
    have hinside : Step.inside seen (fun seen => (put seen, j)) (Sightings.insert b doc) (g, j) =
        .error fault (put seen', j) := by simp only [Step.inside, hinsert]
    rw [Step.after_bind_of_error hinside]
    exact ⟨seen', [], [], rfl, hgains, .refl _, .inl rfl⟩
  | ok fresh seen' =>
    rw [Step.after_of_ok hinsert] at hgains
    have hinside : Step.inside seen (fun seen => (put seen, j)) (Sightings.insert b doc) (g, j) =
        .ok fresh (put seen', j) := Step.inside_eq_ok.2 ⟨seen', hinsert, rfl⟩
    rw [Step.after_bind_of_ok hinside]
    obtain ⟨hadded, hfresh⟩ := Sightings.insert_eq_ok hinsert
    -- noted, it is offered if it is both new and wanted
    split
    case isTrue hnew =>
      obtain ⟨pairs, hmoves⟩ := moves_after_handOn b doc (put seen', j)
      have hthere : seen'.Has b doc := (hadded.has b doc).2 (.inr ⟨rfl, rfl⟩)
      exact ⟨seen', _, pairs, after_handOn b doc _, hgains, hmoves,
        .inr ⟨rfl, hnew.2, hfresh.1 hnew.1, hthere⟩⟩
    case isFalse => exact ⟨seen', [], [], rfl, hgains, .refl _, .inl rfl⟩

/-- Noting a document without a fault: the memory gains the pair, and it is taken if it is new. -/
theorem note_eq_ok {seen : Sightings} {put : Sightings → Gatherer} {wanted : Prop}
    [Decidable wanted] {doc : Doc} {g g' : Gatherer} {j j' : Journal} {a : Unit}
    (h : note seen put wanted b doc j (g, j) = .ok a (g', j')) :
    ∃ seen', g' = put seen' ∧ (seen.Gains seen' fun b' doc' => b' = b ∧ doc' = doc) ∧
      j'.sink.taken.toList = j.sink.taken.toList ++
        if ¬seen.Has b doc ∧ wanted then [⟨b, doc⟩] else [] := by
  obtain ⟨fresh, ⟨g₁, j₁⟩, hinside, hrest⟩ := Step.bind_eq_ok.1 h
  obtain ⟨seen', hinsert, hput⟩ := Step.inside_eq_ok.1 hinside
  obtain ⟨rfl, rfl⟩ := Prod.mk.inj hput
  obtain ⟨hgains, hfresh⟩ := Sightings.insert_eq_ok hinsert
  -- the answer of the memory tells whether the pair is new
  have hcond : fresh = true ∧ wanted ↔ ¬seen.Has b doc ∧ wanted := by rw [hfresh]
  split at hrest
  case isTrue hnew =>
    obtain ⟨rfl, htaken⟩ := handOn_eq_ok hrest
    exact ⟨seen', rfl, hgains, by rw [htaken, if_pos (hcond.1 hnew)]⟩
  case isFalse hnot =>
    cases Step.pure_eq_ok.1 hrest |>.2
    exact ⟨seen', rfl, hgains, by rw [if_neg (mt hcond.2 hnot), List.append_nil]⟩

theorem after_ownKeys (doc : Doc) (x : Gatherer × Journal) :
    ((ownKeys p doc).after x).1 = x.1 ∧ ((ownKeys p doc).after x).2.sink = x.2.sink := by
  obtain ⟨g, j⟩ := x
  rw [Step.after_congr (ownKeys_apply doc g j)]
  cases p.keys 0 doc <;> exact ⟨rfl, rfl⟩

/-- Linking an ordinal is a matter of the facts alone, whether or not it fails. -/
theorem after_link (b : Bucket) (o : Ordinal) (x : Gatherer × Journal) :
    ((link b o).after x).1.forwarding = x.1.forwarding ∧ ((link b o).after x).2 = x.2 := by
  obtain ⟨g, j⟩ := x
  cases hfacts : g.facts with
  | documents seen =>
    rw [Step.after_of_ok (link_of_documents hfacts b o j)]
    exact ⟨rfl, rfl⟩
  | links table =>
    rw [Step.after_congr (link_of_links hfacts b o j), Step.after_discard, Step.after_inside]
    exact ⟨rfl, rfl⟩

/-- Entering a document, whether or not it fails, where levels are climbed: what asking for its keys
leaves, and linking an ordinal keeps, is left. -/
theorem after_enter_of_links {g : Gatherer} {table : LinkTable} (h : g.facts = .links table)
    (I : Gatherer × Journal → Prop) (b : Bucket) (doc : Doc) (j : Journal)
    (asked : I ((ownKeys p doc).after (g, j))) (keep : ∀ o x, I x → I ((link b o).after x)) :
    I ((enter p b doc).after (g, j)) := by
  rw [Step.after_congr (enter_of_links h b doc j)]
  apply Step.after_bind I asked
  intro keys x _ hx
  exact Step.after_forM_induction I hx fun o _ => keep o

/-- Handing a hit on, whether or not it fails, where hits are handed on. -/
theorem after_forwardHit_of_hits {g : Gatherer} {seen : Sightings}
    (h : g.forwarding = .hits seen) (b : Bucket) (hit : Doc) (j : Journal) :
    ∃ seen' offers pairs,
      ((forwardHit b hit).after (g, j)).1 = { g with forwarding := .hits seen' } ∧
      Noting True b hit seen seen' j.sink ((forwardHit b hit).after (g, j)).2.sink offers
        pairs := by
  rw [Step.after_congr (forwardHit_of_hits h b hit j)]
  exact after_note _ _ _ b hit g j

/-- Entering a document, whether or not it fails, where main documents are counted. -/
theorem after_enter_of_documents {g : Gatherer} {seen : Sightings}
    (h : g.facts = .documents seen) (b : Bucket) (doc : Doc) (j : Journal) :
    ∃ seen' offers pairs,
      ((enter p b doc).after (g, j)).1 = { g with facts := .documents seen' } ∧
      Noting (g.forwarding = .mainDocuments) b doc seen seen' j.sink
        ((enter p b doc).after (g, j)).2.sink offers pairs := by
  rw [Step.after_congr (enter_of_documents h b doc j)]
  exact after_note _ _ _ b doc g j

/-- Handing a hit on changes neither the facts nor the memory of the document seen last, whether or
not it fails. -/
theorem after_forwardHit (b : Bucket) (hit : Doc) (x : Gatherer × Journal) :
    ((forwardHit b hit).after x).1.facts = x.1.facts ∧
      ((forwardHit b hit).after x).1.recent = x.1.recent := by
  obtain ⟨g, j⟩ := x
  -- either nothing is to be done, or the record of offered hits changes
  by_cases hidle : ∀ seen, g.forwarding ≠ .hits seen
  · rw [Step.after_of_ok (forwardHit_of_ne hidle b hit j)]
    exact ⟨rfl, rfl⟩
  · obtain ⟨seen, hseen⟩ := not_forall_not.1 hidle
    obtain ⟨seen', -, -, hleft, -⟩ := after_forwardHit_of_hits hseen b hit j
    rw [hleft]
    exact ⟨rfl, rfl⟩

/-! ## §4 One hit -/

/-- The state after a hit has been counted. -/
def counted (x : Gatherer × Journal) : Gatherer × Journal :=
  ({ x.1 with hits := x.1.hits + 1 }, x.2)

/-- The ways in which taking a hit can go. -/
inductive Outcome (s : Settings) (p : Partition) (hit : Doc) (b : Bucket)
    (x : Gatherer × Journal) : EStateM.Result Fault (Gatherer × Journal) Unit → Prop where
  /-- Handing the hit on fails. -/
  | refused {fault : Fault} {y : Gatherer × Journal}
      (hforward : forwardHit b hit (counted x) = .error fault y) :
      Outcome s p hit b x (.error fault y)
  /-- The hit is passed over. -/
  | passed {y : Gatherer × Journal} (hforward : forwardHit b hit (counted x) = .ok () y)
      (hknown : ∀ doc, p.target s hit = some doc → y.1.recent.Has doc b) :
      Outcome s p hit b x (.ok () y)
  /-- The document of the hit is remembered, and entered. -/
  | entered {g : Gatherer} {j : Journal} {doc : Doc} {recent : Recent}
      (hforward : forwardHit b hit (counted x) = .ok () (g, j))
      (htarget : p.target s hit = some doc) (hnew : ¬g.recent.Has doc b)
      (hrecent : ∀ d b', recent.Has d b' ↔ d = doc ∧ (b' = b ∨ g.recent.Has doc b')) :
      Outcome s p hit b x (enter p b doc ({ g with recent }, j))

theorem take_outcome (x : Gatherer × Journal) : Outcome s p hit b x (take s p hit b x) := by
  -- once the hit is counted, it is handed on, and then its document is looked for
  have htake : take s p hit b x = (forwardHit b hit >>= fun _ => (p.target s hit).elim (pure ())
      fun doc => sightRecent b doc >>= fun fresh =>
        if fresh then enter p b doc else pure ()) (counted x) := by
    unfold take
    cases p.target s hit <;> rfl
  rw [htake]
  cases hforward : forwardHit b hit (counted x) with
  | error fault y =>
    rw [Step.bind_of_error hforward]
    exact .refused hforward
  | ok u y =>
    rw [Step.bind_of_ok hforward]
    obtain ⟨g, j⟩ := y
    cases htarget : p.target s hit with
    | none => exact .passed hforward fun doc hdoc => by simp [htarget] at hdoc
    | some doc =>
      have hsight : sightRecent b doc (g, j) =
          .ok (g.recent.sight doc b).1 ({ g with recent := (g.recent.sight doc b).2 }, j) := rfl
      change Outcome s p hit b x
        ((sightRecent b doc >>= fun fresh => if fresh then enter p b doc else pure ()) (g, j))
      rw [Step.bind_of_ok hsight]
      -- the document was seen just before, or it is remembered from now on
      by_cases hknown : g.recent.Has doc b
      · rw [Recent.sight_of_has hknown]
        apply Outcome.passed hforward
        intro doc' hdoc'
        obtain rfl : doc = doc' := Option.some.inj (htarget.symm.trans hdoc')
        exact hknown
      · obtain ⟨recent, hnew, hrecent⟩ := Recent.sight_of_not_has hknown
        rw [hnew]
        exact .entered hforward htarget hknown hrecent

/-- A hit that is taken without a fault has been handed on, and was then passed over or entered. -/
theorem take_eq_ok {g g' : Gatherer} {j j' : Journal} {a : Unit}
    (h : take s p hit b (g, j) = .ok a (g', j')) :
    ∃ g₁ j₁, forwardHit b hit (counted (g, j)) = .ok () (g₁, j₁) ∧
      g₁.facts = g.facts ∧ g₁.recent = g.recent ∧
      ((g' = g₁ ∧ j' = j₁ ∧ ∀ doc, p.target s hit = some doc → g.recent.Has doc b) ∨
        ∃ doc recent, p.target s hit = some doc ∧ ¬g.recent.Has doc b ∧
          (∀ d b', recent.Has d b' ↔ d = doc ∧ (b' = b ∨ g.recent.Has doc b')) ∧
          enter p b doc ({ g₁ with recent }, j₁) = .ok a (g', j')) := by
  have hforwarded := after_forwardHit b hit (counted (g, j))
  have houtcome : Outcome s p hit b (g, j) (take s p hit b (g, j)) := take_outcome _
  generalize take s p hit b (g, j) = result at houtcome h
  -- handing the hit on has left facts and memory as they were
  cases houtcome with
  | refused hforward => cases h
  | passed hforward hknown =>
    cases h
    rw [Step.after_of_ok hforward] at hforwarded
    exact ⟨g', j', hforward, hforwarded.1, hforwarded.2,
      .inl ⟨rfl, rfl, fun doc hdoc => hforwarded.2 ▸ hknown doc hdoc⟩⟩
  | @entered g₁ j₁ doc recent hforward htarget hnew hrecent =>
    rw [Step.after_of_ok hforward] at hforwarded
    obtain ⟨hfacts, hsame⟩ : g₁.facts = g.facts ∧ g₁.recent = g.recent := hforwarded
    rw [hsame] at hnew hrecent
    exact ⟨g₁, j₁, hforward, hfacts, hsame, .inr ⟨doc, recent, htarget, hnew, hrecent, h⟩⟩

/-! ## §5 Runs of hits -/

/-- Take hits one after the other, going on after faults. -/
def takeEach (s : Settings) (p : Partition) (hits : List (Doc × Bucket))
    (x : Gatherer × Journal) : Gatherer × Journal :=
  hits.foldl (fun x hit => (take s p hit.1 hit.2).after x) x

/-- If no hit fails, going on after faults makes no difference. -/
theorem takeEach_of_forM {hits : List (Doc × Bucket)} {x y : Gatherer × Journal} {a : Unit}
    (h : (hits.forM fun (hit, b) => take s p hit b : Step (Gatherer × Journal) Unit) x =
      .ok a y) : y = takeEach s p hits x := by
  -- what an answer leaves is the state that the next hit is taken from
  induction hits generalizing x with
  | nil => exact (Step.pure_eq_ok.1 h).2.symm
  | cons hit hits ih =>
    obtain ⟨⟨⟩, z, htake, hrest⟩ := Step.bind_eq_ok.1 h
    rw [takeEach, List.foldl_cons, Step.after_of_ok htake]
    exact ih hrest

theorem takeEach_concat (hits : List (Doc × Bucket)) (x : Gatherer × Journal) :
    takeEach s p (hits ++ [(hit, b)]) x = (take s p hit b).after (takeEach s p hits x) := by
  simp [takeEach]

end Gatherer

end Lineage
