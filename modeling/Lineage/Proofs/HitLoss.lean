import Lineage.Partition.Listing
import Lineage.Proofs.Gathering

/-!
# Hits that get lost

A hit that is taken without a fault should leave its document in the facts.  It does not always:
a document is remembered as the one seen last before it is entered, so if entering it fails, the
next hit of it is passed over, without a fault and without anything in the facts.  This goes on
until another document is remembered.

## Main statements

- `Facts.LearnsFor`: what any attempt to take a hit does to the facts;
- `Gatherer.step_take`: what it does to facts and memory, whether or not it fails;
- `Gatherer.knows_iff_not_lost`: exactly when a hit that is taken without a fault is in the facts.
-/

namespace Lineage

/-! ## §1 What facts know -/

namespace Facts

variable {p : Partition} {b : Bucket} {doc : Doc}

/-- The facts have all that a document counts for in a bucket. -/
def Knows (p : Partition) (b : Bucket) (doc : Doc) : Facts → Prop
  | links table => ∃ keys, p.keys 0 doc = .ok keys ∧ ∀ o ∈ keys, table.Links b o
  | documents seen => seen.Has b doc

instance (f : Facts) : Decidable (f.Knows p b doc) :=
  match f with
  | links table =>
    match h : p.keys 0 doc with
    | .ok keys => decidable_of_iff (keys.all fun o => table.Links b o) (by simp [Knows, h])
    | .error _ => .isFalse (by simp [Knows, h])
  | documents seen => inferInstanceAs (Decidable (seen.Has b doc))

/-- Facts have changed for a bucket only, and have forgotten nothing. -/
structure LearnsFor (p : Partition) (b : Bucket) (f f' : Facts) : Prop where
  keeps : ∀ {b' doc}, f.Knows p b' doc → f'.Knows p b' doc
  others : ∀ {b' doc}, b' ≠ b → f'.Knows p b' doc → f.Knows p b' doc

theorem LearnsFor.refl (f : Facts) : LearnsFor p b f f where
  keeps := id
  others _ := id

theorem LearnsFor.trans {f f' f'' : Facts} (h : LearnsFor p b f f') (h' : LearnsFor p b f' f'') :
    LearnsFor p b f f'' where
  keeps := h'.keeps ∘ h.keeps
  others hb := h.others hb ∘ h'.others hb

theorem learnsFor_links {table table' : LinkTable} {added : UInt32 → UInt32 → Prop}
    (h : table.Gains table' added) (hb : ∀ b' o, added b' o → b' = b) :
    LearnsFor p b (links table) (links table') where
  keeps := by
    -- the keys of a document come from the partition, so only the links can change
    rintro b' doc ⟨keys, hkeys, hlinks⟩
    exact ⟨keys, hkeys, fun o ho => (h.links b' o).2 (.inl (hlinks o ho))⟩
  others := by
    rintro b' doc hne ⟨keys, hkeys, hlinks⟩
    refine ⟨keys, hkeys, fun o ho => ?_⟩
    exact ((h.links b' o).1 (hlinks o ho)).resolve_right fun hnew => hne (hb b' o hnew)

theorem learnsFor_documents {seen seen' : Sightings} {added : Bucket → Doc → Prop}
    (h : seen.Gains seen' added) (hb : ∀ b' doc, added b' doc → b' = b) :
    LearnsFor p b (documents seen) (documents seen') where
  keeps hknows := (h.has _ _).2 (.inl hknows)
  others hne hknows := ((h.has _ _).1 hknows).resolve_right fun hnew => hne (hb _ _ hnew)

end Facts

namespace Gatherer

variable {s : Settings} {p : Partition} {hit doc : Doc} {b : Bucket}

/-! ## §2 Entering a document -/

/-- A step leaves the memory of the document seen last, and changes the facts for a bucket only. -/
private def Enters (p : Partition) (b : Bucket) (g g' : Gatherer) : Prop :=
  g'.recent = g.recent ∧ Facts.LearnsFor p b g.facts g'.facts

private theorem enters_after_link (o : Ordinal) (x : Gatherer × Journal) :
    Enters p b x.1 ((link b o).after x).1 := by
  obtain ⟨g, j⟩ := x
  cases hfacts : g.facts with
  | documents seen =>
    rw [Step.after_of_ok (link_of_documents hfacts b o j)]
    exact ⟨rfl, .refl _⟩
  -- an insertion that fails for want of room adds nothing or the link itself
  | links table =>
    rw [Step.after_congr (link_of_links hfacts b o j), Step.after_discard, Step.after_inside]
    refine ⟨rfl, ?_⟩
    rw [hfacts]
    rcases LinkTable.gains_after_insert table b o with hgains | hgains
    · exact Facts.learnsFor_links hgains fun _ _ hnew => hnew.elim
    · exact Facts.learnsFor_links hgains fun _ _ hnew => hnew.1

private theorem enters_after_enter (doc : Doc) (x : Gatherer × Journal) :
    Enters p b x.1 ((enter p b doc).after x).1 := by
  obtain ⟨g, j⟩ := x
  cases hfacts : g.facts with
  | documents seen =>
    obtain ⟨seen', offers, pairs, hleft, hnoting⟩ :=
      after_enter_of_documents (p := p) hfacts b doc j
    rw [hleft]
    refine ⟨rfl, ?_⟩
    rw [hfacts]
    rcases hnoting.gains with hgains | hgains
    · exact Facts.learnsFor_documents hgains fun _ _ hnew => hnew.elim
    · exact Facts.learnsFor_documents hgains fun _ _ hnew => hnew.1
  -- the keys before a failing one have been linked, so this goes key by key
  | links table =>
    apply after_enter_of_links hfacts fun y => Enters p b g y.1
    case asked =>
      rw [(after_ownKeys doc (g, j)).1]
      exact ⟨rfl, .refl _⟩
    case keep =>
      intro o y hy
      have hlink := enters_after_link (p := p) (b := b) o y
      exact ⟨hlink.1.trans hy.1, hy.2.trans hlink.2⟩

/-- A document that is entered without a fault is known. -/
theorem knows_of_enter {g g' : Gatherer} {j j' : Journal} {a : Unit}
    (h : enter p b doc (g, j) = .ok a (g', j')) : g'.facts.Knows p b doc := by
  cases hfacts : g.facts with
  | documents seen =>
    obtain ⟨seen', rfl, hgains⟩ := enter_documents_eq_ok hfacts h
    exact (hgains.has b doc).2 (.inr ⟨rfl, rfl⟩)
  | links table =>
    rw [enter_of_links hfacts] at h
    obtain ⟨keys, ⟨g₁, j₁⟩, hask, hlinks⟩ := Step.bind_eq_ok.1 h
    obtain ⟨hkeys, rfl⟩ := ownKeys_eq_ok hask
    obtain ⟨table', rfl, hgains⟩ := link_eq_ok hfacts hlinks
    exact ⟨keys, hkeys, fun o ho => (hgains.links b o).2 (.inr ⟨rfl, ho⟩)⟩

/-! ## §3 Any attempt to take a hit -/

/-- What an attempt to take a hit does to facts and memory, and what they are if it answers. -/
inductive Takes (s : Settings) (p : Partition) (hit : Doc) (b : Bucket) (g g' : Gatherer)
    (answers : Prop) : Prop where
  /-- Nothing is entered.  If there is a document and no fault, it was seen just before. -/
  | idle (hfacts : g'.facts = g.facts) (hrecent : g'.recent = g.recent)
      (hseen : answers → ∀ doc, p.target s hit = some doc → g.recent.Has doc b)
  /-- The document is new and remembered.  It is also known if there is no fault. -/
  | entered {doc : Doc} (htarget : p.target s hit = some doc) (hnew : ¬g.recent.Has doc b)
      (hrecent : ∀ d b', g'.recent.Has d b' ↔ d = doc ∧ (b' = b ∨ g.recent.Has doc b'))
      (hlearns : Facts.LearnsFor p b g.facts g'.facts)
      (hknown : answers → g'.facts.Knows p b doc)

theorem step_take (x : Gatherer × Journal) :
    Takes s p hit b x.1 ((take s p hit b).after x).1
      (∃ a y, take s p hit b x = .ok a y) := by
  have hforwarded := after_forwardHit b hit (counted x)
  have houtcome : Outcome s p hit b x (take s p hit b x) := take_outcome x
  generalize htake : take s p hit b x = outcome at houtcome
  cases houtcome with
  -- a refused hit is not answered, so nothing has to have been seen
  | @refused fault y hforward =>
    rw [Step.after_of_error hforward] at hforwarded
    rw [Step.after_of_error htake]
    refine .idle hforwarded.1 hforwarded.2 fun hanswers => ?_
    obtain ⟨a, z, hok⟩ := hanswers
    cases hok
  -- passed over without a fault: there is no document, or it was the one seen last
  | @passed y hforward hknown =>
    rw [Step.after_of_ok hforward] at hforwarded
    rw [Step.after_of_ok htake]
    refine .idle hforwarded.1 hforwarded.2 fun _ doc htarget => ?_
    exact hforwarded.2 ▸ hknown doc htarget
  | @entered g j doc recent hforward htarget hnew hrecent =>
    rw [Step.after_of_ok hforward] at hforwarded
    obtain ⟨hfacts, hsame⟩ : g.facts = x.1.facts ∧ g.recent = x.1.recent := hforwarded
    rw [Step.after_congr htake]
    have henters := enters_after_enter (p := p) (b := b) doc ({ g with recent }, j)
    rw [hsame] at hnew hrecent
    refine .entered htarget hnew ?_ (hfacts ▸ henters.2) ?_
    · rw [henters.1]
      exact hrecent
    · rintro ⟨a, y, hok⟩
      rw [Step.after_of_ok hok]
      exact knows_of_enter hok

/-! ## §4 Lost hits -/

/-- An earlier attempt to enter a document for a bucket has failed and left it unknown, and the
document has been the one seen last ever since. -/
def Lost (s : Settings) (p : Partition) (x : Gatherer × Journal) (hits : List (Doc × Bucket))
    (doc : Doc) (b : Bucket) : Prop :=
  ∃ done hit rest, hits = done ++ (hit, b) :: rest ∧ p.target s hit = some doc ∧
    (∃ fault y, take s p hit b (takeEach s p done x) = .error fault y ∧
      ¬y.1.facts.Knows p b doc) ∧
    ∀ since, since <+: rest → (takeEach s p (done ++ (hit, b) :: since) x).1.recent.Has doc b

variable {x : Gatherer × Journal} {hits : List (Doc × Bucket)} {b' : Bucket}

/-- One more hit either keeps a document lost or is the one that loses it. -/
private theorem lost_concat : Lost s p x (hits ++ [(hit, b')]) doc b ↔
    (takeEach s p (hits ++ [(hit, b')]) x).1.recent.Has doc b ∧ (Lost s p x hits doc b ∨
      b' = b ∧ p.target s hit = some doc ∧ ∃ fault y,
        take s p hit b (takeEach s p hits x) = .error fault y ∧ ¬y.1.facts.Knows p b doc) := by
  constructor
  · rintro ⟨done, failed, rest, hsplit, htarget, hfault, hsince⟩
    -- what has been lost was lost by the last hit or by one before it
    rcases List.eq_nil_or_concat rest with rfl | ⟨rest, last, rfl⟩
    · obtain ⟨rfl, hlast⟩ := List.append_inj' hsplit rfl
      cases hlast
      exact ⟨hsince [] (List.prefix_refl _), .inr ⟨rfl, htarget, hfault⟩⟩
    · have hsplit' : hits ++ [(hit, b')] = (done ++ (failed, b) :: rest) ++ [last] := by
        simp [hsplit]
      obtain ⟨rfl, hlast⟩ := List.append_inj' hsplit' rfl
      cases hlast
      refine ⟨?_, .inl ⟨done, failed, rest, rfl, htarget, hfault, fun since hpre => ?_⟩⟩
      · rw [hsplit]
        exact hsince _ (List.prefix_refl _)
      · exact hsince since (hpre.trans (List.prefix_concat _ rest))
  · -- lost before and still the one seen last, or lost by this very hit
    rintro ⟨hrecent, hlost | ⟨rfl, htarget, hfault⟩⟩
    · obtain ⟨done, failed, rest, rfl, htarget, hfault, hsince⟩ := hlost
      refine ⟨done, failed, rest ++ [(hit, b')], by simp, htarget, hfault, fun since hpre => ?_⟩
      rcases List.prefix_concat_iff.1 hpre with rfl | hpre
      · simpa using hrecent
      · exact hsince since hpre
    · refine ⟨hits, hit, [], rfl, htarget, hfault, fun since hpre => ?_⟩
      rw [List.prefix_nil.1 hpre]
      exact hrecent

/-- What is remembered but not known is what has been lost.  The induction is over the hits from
the last one back: a hit that is not entered changes nothing, and one that is entered speaks for
its own bucket only. -/
theorem lost_iff {g : Gatherer} {j : Journal} (hstart : start s p = .ok g) :
    Lost s p (g, j) hits doc b ↔
      (takeEach s p hits (g, j)).1.recent.Has doc b ∧
        ¬(takeEach s p hits (g, j)).1.facts.Knows p b doc := by
  induction hits using List.reverseRecOn with
  | nil =>
    obtain rfl := eq_of_start hstart
    refine iff_of_false ?_ fun h => Recent.not_has_empty doc b h.1
    rintro ⟨done, hit, rest, hsplit, -⟩
    simp at hsplit
  | append_singleton hits last ih =>
    obtain ⟨hit, b'⟩ := last
    rw [lost_concat, ih, and_congr_right_iff, takeEach_concat]
    intro hhas
    have hstep : Takes s p hit b' _ _ _ := step_take (takeEach s p hits (g, j))
    have hfailed {y : Gatherer × Journal} {fault : Fault}
        (hfault : take s p hit b' (takeEach s p hits (g, j)) = .error fault y) :
        (take s p hit b').after (takeEach s p hits (g, j)) = y := Step.after_of_error hfault
    cases hstep with
    -- facts and memory are as before, and this hit has not lost anything
    | idle hfacts hrecent _ =>
      rw [hfacts]
      rw [hrecent] at hhas
      constructor
      · rintro (hlost | ⟨rfl, -, fault, y, hfault, hunknown⟩)
        · exact hlost.2
        · rwa [← hfailed hfault, hfacts] at hunknown
      · intro hunknown
        exact .inl ⟨hhas, hunknown⟩
    -- the only document that is remembered now is the one that was entered
    | @entered d htarget hnew hrecent hlearns hknown =>
      obtain ⟨rfl, hb⟩ := (hrecent doc b).1 hhas
      constructor
      · rintro (⟨hhad, hunknown⟩ | ⟨rfl, -, fault, y, hfault, hunknown⟩)
        · -- it was remembered for this bucket before, so the hit was of another one
          have hne : b ≠ b' := fun heq => hnew (heq ▸ hhad)
          exact fun hknows => hunknown (hlearns.others hne hknows)
        · rwa [hfailed hfault]
      · intro hunknown
        rcases hb with rfl | hhad
        · -- the hit is of this bucket and not known after it, so it has failed
          refine .inr ⟨rfl, htarget, ?_⟩
          cases hresult : take s p hit b (takeEach s p hits (g, j)) with
          | ok a y => exact absurd (hknown ⟨a, y, hresult⟩) hunknown
          | error fault y => exact ⟨fault, y, rfl, by rwa [hfailed hresult] at hunknown⟩
        · exact .inl ⟨hhad, fun hknows => hunknown (hlearns.keeps hknows)⟩

/-- A hit with a document that is taken without a fault, after any hits with or without faults, is
in the facts exactly if the document has not been lost before: if it was not entered in vain for
the bucket and has been the document seen last ever since. -/
theorem knows_iff_not_lost {g g' : Gatherer} {j j' : Journal} {a : Unit}
    (hstart : start s p = .ok g) (htarget : p.target s hit = some doc)
    (htake : take s p hit b (takeEach s p hits (g, j)) = .ok a (g', j')) :
    g'.facts.Knows p b doc ↔ ¬Lost s p (g, j) hits doc b := by
  have hstep : Takes s p hit b _ _ _ := step_take (takeEach s p hits (g, j))
  rw [Step.after_of_ok htake] at hstep
  rw [lost_iff hstart]
  -- passed over, it stays as known as it was; entered, it is known and was not remembered
  cases hstep with
  | idle hfacts _ hseen =>
    have hhas := hseen ⟨a, _, htake⟩ doc htarget
    rw [show g'.facts = _ from hfacts]
    simp [hhas]
  | entered htarget' hnew _ _ hknown =>
    obtain rfl := Option.some.inj (htarget.symm.trans htarget')
    have hknows : g'.facts.Knows p b doc := hknown ⟨a, _, htake⟩
    exact iff_of_true hknows fun hlost => hnew hlost.1

/-- Every hit with a document that is taken without a fault is in the facts. -/
def KeepsHits (s : Settings) : Prop :=
  ∀ (p : Partition) (g g' : Gatherer) (j j' : Journal) (hits : List (Doc × Bucket))
    (hit doc : Doc) (b : Bucket), start s p = .ok g → p.target s hit = some doc →
    take s p hit b (takeEach s p hits (g, j)) = .ok () (g', j') → g'.facts.Knows p b doc

private theorem not_keepsHits (hits : List (Doc × Bucket)) (hit doc : Doc) {g : Gatherer}
    {j : Journal} (hstart : start s p = .ok g) (htarget : p.target s hit = some doc)
    (h : (take s p hit b).Answers (takeEach s p hits (g, j)) fun _ y => ¬y.1.facts.Knows p b doc) :
    ¬KeepsHits s := by
  intro hkept
  -- the run that is evaluated gives the state in which the document is unknown
  obtain ⟨⟨⟩, ⟨g', j'⟩, htake, hunknown⟩ := Step.answers_iff.1 h
  exact hunknown (hkept p g g' j j' hits hit doc b hstart htarget htake)

/-- A document whose keys cannot be read, and its main document. -/
def mute : Listing where
  keys := [(⟨0, 0⟩, 0, [3])]
  ancestors := [[]]
  mains := some [⟨0, 1⟩]
  refusals := [(.keys 0 ⟨0, 0⟩, ⟨.stated "keys of the document are unreadable", []⟩)]

/-- Main documents are counted, with less room than one of them takes. -/
def cramped : Settings :=
  { Settings.default with levels := 0, nested := true, memoryLimit := ⟨100⟩ }

/-- The second hit of a document whose keys cannot be read is taken without a fault, and so is that
of a main document for which there is no room. -/
theorem second_hit_not_kept : ¬KeepsHits .default ∧ ¬KeepsHits cramped := by
  constructor
  · exact not_keepsHits (b := 0) (p := mute.toPartition) (j := .start .unlimited) [(⟨0, 0⟩, 0)]
      ⟨0, 0⟩ ⟨0, 0⟩ rfl rfl (by decide +kernel)
  · exact not_keepsHits (b := 0) (p := mute.toPartition) (j := .start .unlimited) [(⟨0, 0⟩, 0)]
      ⟨0, 0⟩ ⟨0, 1⟩ rfl (by decide) (by decide +kernel)

/-- The first of the two, seen through the general statement: the document has been lost. -/
theorem knows_iff_not_lost_mute : ∃ g g' j',
    start .default mute.toPartition = .ok g ∧
    take .default mute.toPartition ⟨0, 0⟩ 0
      (takeEach .default mute.toPartition [(⟨0, 0⟩, 0)] (g, .start .unlimited)) = .ok () (g', j') ∧
    Lost .default mute.toPartition (g, .start .unlimited) [(⟨0, 0⟩, 0)] ⟨0, 0⟩ 0 := by
  have hrun : (take .default mute.toPartition ⟨0, 0⟩ 0).Answers
      (takeEach .default mute.toPartition [(⟨0, 0⟩, 0)]
        (⟨factsFor .default, forwardingFor .default, .empty, 0⟩, .start .unlimited))
      fun _ y => ¬y.1.facts.Knows mute.toPartition 0 ⟨0, 0⟩ := by
    decide +kernel
  obtain ⟨⟨⟩, ⟨g', j'⟩, htake, hunknown⟩ := Step.answers_iff.1 hrun
  refine ⟨_, g', j', rfl, htake, ?_⟩
  by_contra hnot
  exact hunknown ((knows_iff_not_lost rfl rfl htake).2 hnot)

end Gatherer

end Lineage
