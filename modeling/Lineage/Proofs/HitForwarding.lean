import Lineage.Partition.Listing
import Lineage.Proofs.Gathering

/-!
# Which hits are handed on

Two memories decide what a gatherer hands on: the record of what was offered, which is complete, and
the document seen last, which can pass over a hit before the record is asked.  Whatever fails on the
way, a pair that has been offered is in the record, so it is not offered again.  In a run without
faults the document seen last is in the record too, so nothing is left out.

## Main statements

- `Gatherer.due`: what a hit is to be handed on as;
- `Gatherer.continues_takeEach`: a run with or without faults offers no pair twice;
- `Gatherer.keepsUp_forM_take`: a run without faults hands on everything that is due;
- `Gatherer.takeEach_handsOn`: both together, from the start; where hits are not handed on, nothing
  is offered at all.
-/

namespace Lineage

/-! ## §1 Lists without repeats -/

theorem eraseDups_append_singleton {α : Type} [DecidableEq α] (xs : List α) (x : α) :
    (xs ++ [x]).eraseDups = xs.eraseDups ++ if x ∈ xs then [] else [x] := by
  rw [List.eraseDups_append]
  by_cases hmem : x ∈ xs
  · simp [List.removeAll, hmem]
  · simp [List.removeAll, hmem, List.eraseDups_cons]

theorem nodup_eraseDups {α : Type} [DecidableEq α] (xs : List α) : xs.eraseDups.Nodup := by
  -- `eraseDups` keeps first occurrences, so the list is taken apart from its end
  induction xs using List.reverseRecOn with
  | nil => simp
  | append_singleton xs x ih =>
    rw [eraseDups_append_singleton]
    by_cases hmem : x ∈ xs
    · simpa [hmem] using ih
    · rw [if_neg hmem]
      apply ih.append (List.nodup_singleton x)
      simpa using hmem

namespace Gatherer

variable {s : Settings} {p : Partition} {hits : List (Doc × Bucket)} {hit doc : Doc} {b : Bucket}
  {g g' : Gatherer} {j j' : Journal}

/-! ## §2 What is to be handed on -/

/-- The pair that a hit is to be handed on as: the hit itself in the mode for hits, and its main
document, if it has one, in the mode for ancestors where main documents are counted. -/
def due (s : Settings) (p : Partition) (hit : Doc) (b : Bucket) : Option Handoff :=
  if s.forwardHits then
    match s.mode with
    | .hits => some ⟨b, hit⟩
    | .ancestors => if s.isDirect then (p.target s hit).map (⟨b, ·⟩) else none
  else none

/-- The pairs that hits are to be handed on as, in the order of the hits and with all repeats. -/
def dues (s : Settings) (p : Partition) (hits : List (Doc × Bucket)) : List Handoff :=
  hits.filterMap fun (hit, b) => due s p hit b

/-- Hits are handed on, as themselves or, where these are counted, as main documents. -/
def ForwardsHits (s : Settings) : Prop :=
  s.forwardHits = true ∧ (s.mode = .hits ∨ s.isDirect = true)

/-- In every other configuration no hit has to be handed on as anything. -/
theorem dues_eq_nil (h : ¬ForwardsHits s) (hits : List (Doc × Bucket)) : dues s p hits = [] := by
  unfold ForwardsHits at h
  unfold dues
  rw [List.filterMap_eq_nil_iff]
  rintro ⟨hit, b⟩ -
  unfold due
  -- one case for each of the ways in which handing on hits can be off
  cases hforward : s.forwardHits with
  | false => rfl
  | true =>
    cases hmode : s.mode with
    | hits => exact absurd ⟨hforward, .inl hmode⟩ h
    | ancestors =>
      cases hdirect : s.isDirect with
      | false => rfl
      | true => exact absurd ⟨hforward, .inr hdirect⟩ h

theorem dues_append_singleton :
    dues s p (hits ++ [(hit, b)]) = dues s p hits ++ (due s p hit b).toList := by
  rw [dues, List.filterMap_append, dues]
  cases hdue : due s p hit b with
  | none => simp [hdue]
  | some pair => simp [hdue]

/-- What a gatherer remembers of the pairs it was to hand on. -/
inductive Remembers (s : Settings) (p : Partition) (g : Gatherer) : (Handoff → Prop) → Prop where
  | nothing (hforwarding : g.forwarding = .off) (hdue : ∀ hit b, due s p hit b = none) :
      Remembers s p g fun _ => False
  | hits {seen : Sightings} (hforwarding : g.forwarding = .hits seen)
      (hdue : ∀ hit b, due s p hit b = some ⟨b, hit⟩) :
      Remembers s p g fun pair => seen.Has pair.bucket pair.doc
  /-- The documents that are handed on are those that are counted. -/
  | documents {seen : Sightings} (hforwarding : g.forwarding = .mainDocuments)
      (hfacts : g.facts = .documents seen)
      (hdue : ∀ hit b, due s p hit b = (p.target s hit).map (⟨b, ·⟩)) :
      Remembers s p g fun pair => seen.Has pair.bucket pair.doc

variable {noted noted' : Handoff → Prop}

/-- A gatherer before its first hit remembers nothing. -/
theorem remembers_start (h : start s p = .ok g) :
    ∃ noted, Remembers s p g noted ∧ ∀ pair, ¬noted pair := by
  obtain rfl := eq_of_start h
  have hempty (pair : Handoff) : ¬(Sightings.empty s.limit).Has pair.bucket pair.doc :=
    Sightings.not_has_empty s.limit pair.bucket pair.doc
  -- settings decide at the start which of the three kinds of memory there will be
  cases hforward : s.forwardHits with
  | false =>
    exact ⟨_, .nothing (by simp [forwardingFor, hforward]) (by simp [due, hforward]), fun _ => id⟩
  | true =>
    cases hmode : s.mode with
    | hits =>
      have hforwarding : forwardingFor s = .hits (.empty s.limit) := by
        simp [forwardingFor, hforward, hmode]
      exact ⟨_, .hits hforwarding (by simp [due, hforward, hmode]), hempty⟩
    | ancestors =>
      cases hdirect : s.isDirect with
      | false =>
        have hforwarding : forwardingFor s = .off := by
          simp [forwardingFor, hforward, hmode, hdirect]
        exact ⟨_, .nothing hforwarding (by simp [due, hforward, hmode, hdirect]), fun _ => id⟩
      | true =>
        have hforwarding : forwardingFor s = .mainDocuments := by
          simp [forwardingFor, hforward, hmode, hdirect]
        have hfacts : factsFor s = .documents (.empty s.limit) := by simp [factsFor, hdirect]
        exact ⟨_, .documents hforwarding hfacts (by simp [due, hforward, hmode, hdirect]), hempty⟩

/-! ## §3 The parts of a hit -/

/-- Where main documents are not handed on, entering a document offers nothing, whether or not it
fails. -/
theorem after_enter_of_ne (doc : Doc) (g : Gatherer) (j : Journal)
    (h : g.forwarding ≠ .mainDocuments) :
    ((enter p b doc).after (g, j)).1.forwarding = g.forwarding ∧
      j.sink.Moves ((enter p b doc).after (g, j)).2.sink [] [] := by
  cases hfacts : g.facts with
  | documents seen =>
    obtain ⟨seen', offers, pairs, hleft, hnoting⟩ :=
      after_enter_of_documents (p := p) hfacts b doc j
    obtain rfl : offers = [] := hnoting.offers.resolve_right fun hnew => h hnew.2.1
    obtain rfl : pairs = [] := List.sublist_nil.1 hnoting.moves.sublist
    exact ⟨by rw [hleft], hnoting.moves⟩
  -- asking for keys and linking them leave both the memory and the sink alone
  | links table =>
    have hasked := after_ownKeys (p := p) doc (g, j)
    apply after_enter_of_links hfacts fun y =>
      y.1.forwarding = g.forwarding ∧ j.sink.Moves y.2.sink [] []
    case asked => exact ⟨by rw [hasked.1], by rw [hasked.2]; exact .refl _⟩
    case keep =>
      intro o y hy
      have hlink := after_link b o y
      exact ⟨hlink.1.trans hy.1, by rw [hlink.2]; exact hy.2⟩

/-- However a hit goes, its document is entered after the hit has been handed on, or not at all. -/
theorem after_take (hit : Doc) (b : Bucket) (g : Gatherer) (j : Journal) :
    (take s p hit b).after (g, j) =
        (forwardHit b hit).after ({ g with hits := g.hits + 1 }, j) ∨
      ∃ g₁ j₁ doc recent, p.target s hit = some doc ∧
        (forwardHit b hit).after ({ g with hits := g.hits + 1 }, j) = (g₁, j₁) ∧
        (take s p hit b).after (g, j) = (enter p b doc).after ({ g₁ with recent }, j₁) := by
  have houtcome : Outcome s p hit b (g, j) (take s p hit b (g, j)) := take_outcome (g, j)
  generalize htake : take s p hit b (g, j) = result at houtcome
  -- refused or passed over, the attempt ends where handing on the hit has left it
  cases houtcome with
  | refused hforward =>
    left
    rw [Step.after_of_error htake]
    exact (Step.after_of_error hforward).symm
  | passed hforward _ =>
    left
    rw [Step.after_of_ok htake]
    exact (Step.after_of_ok hforward).symm
  | @entered g₁ j₁ doc recent hforward htarget _ _ =>
    right
    exact ⟨g₁, j₁, doc, recent, htarget, Step.after_of_ok hforward, Step.after_congr htake⟩

/-! ## §4 Runs with or without faults -/

/-- What is remembered has grown, and covers the pairs offered meanwhile, all of them new. -/
structure Records (noted noted' : Handoff → Prop) (offers : List Handoff) : Prop where
  nodup : offers.Nodup
  new : ∀ pair ∈ offers, ¬noted pair ∧ noted' pair
  keeps : ∀ pair, noted pair → noted' pair

theorem Records.refl (noted : Handoff → Prop) : Records noted noted [] where
  nodup := List.nodup_nil
  new _ hpair := absurd hpair List.not_mem_nil
  keeps _ := id

theorem Records.trans {noted'' : Handoff → Prop} {offers offers' : List Handoff}
    (h : Records noted noted' offers) (h' : Records noted' noted'' offers') :
    Records noted noted'' (offers ++ offers') where
  nodup := by
    apply h.nodup.append h'.nodup
    -- what is offered later was not remembered then, what was offered before was
    intro pair hbefore hlater
    exact (h'.new pair hlater).1 (h.new pair hbefore).2
  new pair hpair := by
    rcases List.mem_append.1 hpair with hbefore | hlater
    · exact ⟨(h.new pair hbefore).1, h'.keeps pair (h.new pair hbefore).2⟩
    · exact ⟨fun hold => (h'.new pair hlater).1 (h.keeps pair hold), (h'.new pair hlater).2⟩
  keeps pair := h'.keeps pair ∘ h.keeps pair

/-- A gatherer has gone on: it has offered pairs that are due, and remembers them. -/
def Continues (s : Settings) (p : Partition) (noted : Handoff → Prop) (dues : List Handoff)
    (x y : Gatherer × Journal) : Prop :=
  ∃ noted' offers pairs, Remembers s p y.1 noted' ∧ Records noted noted' offers ∧
    x.2.sink.Moves y.2.sink offers pairs ∧ offers.Sublist dues

/-- Noting a pair records it if it is offered. -/
private theorem Noting.records {seen seen' : Sightings} {sink sink' : Sink}
    {offers pairs : List Handoff} {wanted : Prop}
    (h : Noting wanted b doc seen seen' sink sink' offers pairs) :
    Records (fun pair => seen.Has pair.bucket pair.doc)
      (fun pair => seen'.Has pair.bucket pair.doc) offers where
  nodup := by
    rcases h.offers with rfl | ⟨rfl, -⟩
    · exact List.nodup_nil
    · exact List.nodup_singleton _
  new pair hpair := by
    rcases h.offers with rfl | ⟨rfl, -, hnew, hthere⟩
    · exact absurd hpair List.not_mem_nil
    · obtain rfl := List.mem_singleton.1 hpair
      exact ⟨hnew, hthere⟩
  keeps pair hold := by
    -- whether or not there was room for it, nothing that was noted is dropped
    rcases h.gains with hgains | hgains
    · exact (hgains.has _ _).2 (.inl hold)
    · exact (hgains.has _ _).2 (.inl hold)

private theorem Noting.sublist {seen seen' : Sightings} {sink sink' : Sink}
    {offers pairs : List Handoff} {wanted : Prop}
    (h : Noting wanted b doc seen seen' sink sink' offers pairs) : offers.Sublist [⟨b, doc⟩] := by
  rcases h.offers with rfl | ⟨rfl, -⟩
  · exact List.nil_sublist _
  · exact .refl _

/-- A hit that is taken, with or without a fault, offers its pair if that is new and due. -/
theorem continues_take (hit : Doc) (b : Bucket) (j : Journal) (h : Remembers s p g noted) :
    Continues s p noted (due s p hit b).toList (g, j) ((take s p hit b).after (g, j)) := by
  have htaken := after_take (s := s) (p := p) hit b g j
  cases h with
  | nothing hforwarding hdue =>
    -- nothing is offered, neither the hit nor its document
    rw [Step.after_of_ok (forwardHit_of_ne (by simp [hforwarding]) b hit j)] at htaken
    rcases htaken with hpassed | ⟨g₁, j₁, doc, recent, -, hsame, hentered⟩
    · rw [hpassed]
      exact ⟨_, [], [], .nothing hforwarding hdue, .refl _, .refl _, List.nil_sublist _⟩
    · obtain ⟨rfl, rfl⟩ := Prod.mk.inj hsame
      rw [hentered]
      obtain ⟨hkept, hmoves⟩ := after_enter_of_ne (p := p) (b := b) doc
        { g with recent, hits := g.hits + 1 } j (by simp [hforwarding])
      exact ⟨_, [], [], .nothing (hkept.trans hforwarding) hdue, .refl _, hmoves,
        List.nil_sublist _⟩
  | hits hforwarding hdue =>
    -- the hit is noted, and its document is entered without being offered
    let counted : Gatherer := { g with hits := g.hits + 1 }
    have hforwarding' : counted.forwarding = _ := hforwarding
    obtain ⟨seen', offers, pairs, hleft, hnoting⟩ := after_forwardHit_of_hits hforwarding' b hit j
    have hsublist : offers.Sublist (due s p hit b).toList := hdue hit b ▸ hnoting.sublist
    rcases htaken with hpassed | ⟨g₁, j₁, doc, recent, -, hforwarded, hentered⟩
    · rw [hpassed]
      exact ⟨_, offers, pairs, .hits (congrArg Gatherer.forwarding hleft) hdue, hnoting.records,
        hnoting.moves, hsublist⟩
    · rw [hforwarded] at hleft hnoting
      obtain rfl : g₁ = _ := hleft
      rw [hentered]
      obtain ⟨hkept, hmoves⟩ := after_enter_of_ne (p := p) (b := b) doc
        { counted with forwarding := .hits seen', recent } j₁ (by simp)
      have hall := hnoting.moves.trans hmoves
      rw [List.append_nil, List.append_nil] at hall
      exact ⟨_, offers, pairs, .hits hkept hdue, hnoting.records, hall, hsublist⟩
  | documents hforwarding hfacts hdue =>
    -- the hit is not offered, and its document is noted
    rw [Step.after_of_ok (forwardHit_of_ne (by simp [hforwarding]) b hit j)] at htaken
    rcases htaken with hpassed | ⟨g₁, j₁, doc, recent, htarget, hsame, hentered⟩
    · rw [hpassed]
      exact ⟨_, [], [], .documents hforwarding hfacts hdue, .refl _, .refl _,
        List.nil_sublist _⟩
    · obtain ⟨rfl, rfl⟩ := Prod.mk.inj hsame
      let remembering : Gatherer := { g with recent, hits := g.hits + 1 }
      have hfacts' : remembering.facts = _ := hfacts
      obtain ⟨seen', offers, pairs, hleft, hnoting⟩ :=
        after_enter_of_documents (p := p) hfacts' b doc j
      have hsublist : offers.Sublist (due s p hit b).toList := by
        rw [hdue, htarget]
        exact hnoting.sublist
      rw [hentered]
      exact ⟨_, offers, pairs,
        .documents ((congrArg Gatherer.forwarding hleft).trans hforwarding)
          (congrArg Gatherer.facts hleft) hdue,
        hnoting.records, hnoting.moves, hsublist⟩

/-- A run of hits, with or without faults, offers pairs that are due, and none of them twice. -/
theorem continues_takeEach (hits : List (Doc × Bucket)) (j : Journal)
    (h : Remembers s p g noted) :
    Continues s p noted (dues s p hits) (g, j) (takeEach s p hits (g, j)) := by
  induction hits using List.reverseRecOn with
  | nil => exact ⟨noted, [], [], h, .refl _, .refl _, List.nil_sublist _⟩
  | append_singleton hits last ih =>
    obtain ⟨hit, b⟩ := last
    rw [takeEach_concat, dues_append_singleton]
    obtain ⟨noted', offers, pairs, hremembers, hrecords, hmoves, hsublist⟩ := ih
    obtain ⟨noted'', offers', pairs', hremembers', hrecords', hmoves', hsublist'⟩ :=
      continues_take hit b (takeEach s p hits (g, j)).2 hremembers
    exact ⟨noted'', offers ++ offers', pairs ++ pairs', hremembers', hrecords.trans hrecords',
      hmoves.trans hmoves', hsublist.append hsublist'⟩

/-! ## §5 Runs without faults -/

/-- A gatherer has kept up with its hits: it has handed on all that is due, in the order in which it
became due, remembers exactly that, and the document seen last is no exception. -/
structure KeepsUp (s : Settings) (p : Partition) (j : Journal) (hits : List (Doc × Bucket))
    (noted : Handoff → Prop) (g' : Gatherer) (j' : Journal) : Prop where
  remembers : Remembers s p g' noted
  noted_iff : ∀ pair, noted pair ↔ pair ∈ dues s p hits
  taken : j'.sink.taken.toList = j.sink.taken.toList ++ (dues s p hits).eraseDups
  recent : g'.forwarding = .mainDocuments → ∀ doc b, g'.recent.Has doc b → noted ⟨b, doc⟩

section KeepingUp

variable {j₀ : Journal} {a : Unit}

/-- A hit with nothing due leaves all as it is. -/
private theorem KeepsUp.of_none (h : KeepsUp s p j₀ hits noted g j) (hdue : due s p hit b = none)
    (hremembers : Remembers s p g' noted)
    (htaken : j'.sink.taken.toList = j.sink.taken.toList)
    (hrecent : g'.forwarding = .mainDocuments → ∀ doc b, g'.recent.Has doc b → noted ⟨b, doc⟩) :
    KeepsUp s p j₀ (hits ++ [(hit, b)]) noted g' j' := by
  have hsame : dues s p (hits ++ [(hit, b)]) = dues s p hits := by
    simp [dues_append_singleton, hdue]
  refine ⟨hremembers, ?_, ?_, hrecent⟩
  · rw [hsame]
    exact h.noted_iff
  · rw [hsame, htaken, h.taken]

/-- A pair that is due is taken if it is new, and remembered from then on. -/
private theorem KeepsUp.of_some {pair : Handoff} (h : KeepsUp s p j₀ hits noted g j)
    (hdue : due s p hit b = some pair) (hremembers : Remembers s p g' noted')
    (hnoted : ∀ q, noted' q ↔ noted q ∨ q = pair)
    (hold : noted pair → j'.sink.taken.toList = j.sink.taken.toList)
    (hnew : ¬noted pair → j'.sink.taken.toList = j.sink.taken.toList ++ [pair])
    (hrecent : g'.forwarding = .mainDocuments → ∀ doc b, g'.recent.Has doc b → noted' ⟨b, doc⟩) :
    KeepsUp s p j₀ (hits ++ [(hit, b)]) noted' g' j' := by
  have hmore : dues s p (hits ++ [(hit, b)]) = dues s p hits ++ [pair] := by
    simp [dues_append_singleton, hdue]
  refine ⟨hremembers, fun q => ?_, ?_, hrecent⟩
  · rw [hmore, hnoted, h.noted_iff, List.mem_append, List.mem_singleton]
  · rw [hmore, eraseDups_append_singleton, ← List.append_assoc, ← h.taken]
    -- the repeats that `eraseDups` drops are those that the memory holds
    by_cases hmem : pair ∈ dues s p hits
    · rw [if_pos hmem, List.append_nil, hold ((h.noted_iff pair).2 hmem)]
    · rw [if_neg hmem, hnew (mt (h.noted_iff pair).1 hmem)]

/-- Where main documents are not handed on, entering a document takes nothing. -/
private theorem enter_eq_ok_of_ne (hne : g.forwarding ≠ .mainDocuments)
    (h : enter p b doc (g, j) = .ok a (g', j')) :
    g'.forwarding = g.forwarding ∧ j'.sink.taken.toList = j.sink.taken.toList := by
  obtain ⟨hkept, hmoves⟩ := after_enter_of_ne (p := p) (b := b) doc g j hne
  rw [Step.after_of_ok h] at hkept hmoves
  exact ⟨hkept, by rw [hmoves.taken, List.append_nil]⟩

/-- What `note` takes, as two cases. -/
private theorem taken_of_note {taken taken' : List Handoff} {pair : Handoff} {old wanted : Prop}
    [Decidable old] [Decidable wanted] (hwanted : wanted)
    (h : taken' = taken ++ if ¬old ∧ wanted then [pair] else []) :
    (old → taken' = taken) ∧ (¬old → taken' = taken ++ [pair]) := by
  constructor
  · intro hold
    rw [h, if_neg fun hnew => hnew.1 hold, List.append_nil]
  · intro hnew
    rw [h, if_pos ⟨hnew, hwanted⟩]

/-- A gatherer keeps up with a hit that is taken without a fault. -/
theorem keepsUp_take (h : KeepsUp s p j₀ hits noted g j)
    (htake : take s p hit b (g, j) = .ok a (g', j')) :
    ∃ noted', KeepsUp s p j₀ (hits ++ [(hit, b)]) noted' g' j' := by
  obtain ⟨g₁, j₁, hforward, hfacts₁, hrecent₁, hcases⟩ := take_eq_ok htake
  -- the three kinds of memory: nothing is due, the hit is due, or its document is
  cases h.remembers with
  | nothing hforwarding hdue =>
    rw [counted, forwardHit_of_ne (by simp [hforwarding])] at hforward
    cases hforward
    rcases hcases with ⟨rfl, rfl, -⟩ | ⟨doc, recent, -, -, -, henter⟩
    · exact ⟨_, h.of_none (hdue hit b) (.nothing hforwarding hdue) rfl (by simp [hforwarding])⟩
    · obtain ⟨hkept, htaken⟩ := enter_eq_ok_of_ne (by simp [hforwarding]) henter
      have hoff : g'.forwarding = .off := hkept.trans hforwarding
      exact ⟨_, h.of_none (hdue hit b) (.nothing hoff hdue) htaken (by simp [hoff])⟩
  | @hits seen hforwarding hdue =>
    have hforwarding' : (counted (g, j)).1.forwarding = _ := hforwarding
    rw [show counted (g, j) = ((counted (g, j)).1, j) from rfl,
      forwardHit_of_hits hforwarding'] at hforward
    obtain ⟨seen', hg₁, hgains, htaken⟩ := note_eq_ok hforward
    obtain ⟨hold, hnew⟩ := taken_of_note trivial htaken
    have hnoted (q : Handoff) : seen'.Has q.bucket q.doc ↔
        seen.Has q.bucket q.doc ∨ q = ⟨b, hit⟩ := by
      rw [hgains.has, Handoff.mk.injEq]
    -- entering the document afterwards takes nothing
    have hend : g'.forwarding = .hits seen' ∧ j'.sink.taken.toList = j₁.sink.taken.toList := by
      rcases hcases with ⟨rfl, rfl, -⟩ | ⟨doc, recent, -, -, -, henter⟩
      · exact ⟨by rw [hg₁], rfl⟩
      · subst hg₁
        exact enter_eq_ok_of_ne (by simp) henter
    exact ⟨_, h.of_some (hdue hit b) (.hits hend.1 hdue) hnoted
      (fun hthere => hend.2.trans (hold hthere)) (fun hnone => hend.2.trans (hnew hnone))
      (by simp [hend.1])⟩
  | @documents seen hforwarding hfacts hdue =>
    rw [counted, forwardHit_of_ne (by simp [hforwarding])] at hforward
    cases hforward
    rcases hcases with ⟨rfl, rfl, hseen⟩ | ⟨doc, recent, htarget, hnew, hremembered, henter⟩
    · -- passed over: there is nothing due, or it has been handed on
      cases htarget : p.target s hit with
      | none =>
        have hnone : due s p hit b = none := by rw [hdue, htarget, Option.map_none]
        exact ⟨_, h.of_none hnone (.documents hforwarding hfacts hdue) rfl h.recent⟩
      | some doc =>
        have hsome : due s p hit b = some ⟨b, doc⟩ := by rw [hdue, htarget, Option.map_some]
        have hthere : seen.Has b doc := h.recent hforwarding doc b (hseen doc htarget)
        refine ⟨_, h.of_some hsome (.documents hforwarding hfacts hdue) (fun q => ?_)
          (fun _ => rfl) (fun hnone => absurd hthere hnone) h.recent⟩
        rw [or_iff_left_of_imp]
        rintro rfl
        exact hthere
    · -- entered: the record of counted documents decides whether the pair is new
      let remembering : Gatherer := { g with recent, hits := g.hits + 1 }
      have hfacts' : remembering.facts = .documents seen := hfacts
      have hentered : enter p b doc (remembering, j) = .ok a (g', j') := henter
      rw [enter_of_documents hfacts'] at hentered
      obtain ⟨seen', rfl, hgains, htaken⟩ := note_eq_ok hentered
      obtain ⟨hold, hnew⟩ := taken_of_note hforwarding htaken
      have hnoted (q : Handoff) : seen'.Has q.bucket q.doc ↔
          seen.Has q.bucket q.doc ∨ q = ⟨b, doc⟩ := by
        rw [hgains.has, Handoff.mk.injEq]
      refine ⟨_, h.of_some ?_ (.documents hforwarding rfl hdue) hnoted hold hnew ?_⟩
      · rw [hdue, htarget, Option.map_some]
      · intro _ doc' b' hhas
        obtain ⟨rfl, hb⟩ := (hremembered doc' b').1 hhas
        apply (hnoted ⟨b', doc'⟩).2
        -- handed on just now, or for an earlier bucket of the document
        rcases hb with rfl | hbefore
        · exact .inr rfl
        · exact .inl (h.recent hforwarding doc' b' hbefore)

end KeepingUp

/-- A gatherer keeps up with any run of hits without faults. -/
theorem keepsUp_forM_take {j₀ : Journal} {a : Unit} (h : KeepsUp s p j₀ [] noted g j)
    (hrun : (hits.forM fun (hit, b) => take s p hit b : Step (Gatherer × Journal) Unit) (g, j) =
      .ok a (g', j')) :
    ∃ noted', KeepsUp s p j₀ hits noted' g' j' := by
  -- the invariant speaks of the hits done so far, and what is noted varies with them
  refine Step.forM_induction (s := (g, j)) (fun done (state : Gatherer × Journal) =>
    ∃ noted', KeepsUp s p j₀ done noted' state.1 state.2) ⟨noted, h⟩ ?_ hrun
  intro done hit rest x y _ hx htake
  obtain ⟨noted₁, hkept⟩ := hx
  exact keepsUp_take hkept htake

/-- Nothing is due before the first hit. -/
theorem keepsUp_start (h : start s p = .ok g) (j : Journal) :
    ∃ noted, KeepsUp s p j [] noted g j := by
  obtain ⟨noted, hremembers, hnone⟩ := remembers_start h
  have hrecent : g.recent = .empty := by rw [eq_of_start h]
  refine ⟨noted, hremembers, fun pair => ?_, by simp [dues], fun _ doc b hhas => ?_⟩
  · simp [dues, hnone]
  · rw [hrecent] at hhas
    exact absurd hhas (Recent.not_has_empty doc b)

/-- What is handed on over any hits and to any sink.  Whether or not some of the hits fail, the
pairs that the sink is offered are due, in their order, and no pair is offered twice, let alone
taken.  Where hits are not handed on, it is offered nothing.  If no hit fails, the sink takes all
the pairs that are due, in the order in which each of them became due first. -/
theorem takeEach_handsOn (hits : List (Doc × Bucket)) (j : Journal) (hstart : start s p = .ok g) :
    (∃ offers pairs, j.sink.Moves (takeEach s p hits (g, j)).2.sink offers pairs ∧
      offers.Nodup ∧ pairs.Nodup ∧ offers.Sublist (dues s p hits) ∧
      (¬ForwardsHits s → offers = [])) ∧
    ∀ g' j', (hits.forM fun (hit, b) => take s p hit b : Step (Gatherer × Journal) Unit) (g, j) =
        .ok () (g', j') →
      (g', j') = takeEach s p hits (g, j) ∧
      j'.sink.taken.toList = j.sink.taken.toList ++ (dues s p hits).eraseDups := by
  constructor
  · -- the complete memory alone decides that nothing is offered twice
    obtain ⟨noted, hremembers, -⟩ := remembers_start hstart
    obtain ⟨noted', offers, pairs, -, hrecords, hmoves, hsublist⟩ :=
      continues_takeEach hits j hremembers
    refine ⟨offers, pairs, hmoves, hrecords.nodup, hmoves.sublist.nodup hrecords.nodup, hsublist,
      fun hother => ?_⟩
    rw [dues_eq_nil hother] at hsublist
    exact List.sublist_nil.1 hsublist
  · -- that nothing is left out needs both memories to agree, which they do without faults
    intro g' j' hrun
    obtain ⟨noted, hkept⟩ := keepsUp_start hstart j
    obtain ⟨noted', hkept'⟩ := keepsUp_forM_take hkept hrun
    exact ⟨takeEach_of_forM hrun, hkept'.taken⟩

/-- Two main documents with nested ones before them; the last nested document has none. -/
def nest : Listing where
  keys := []
  ancestors := []
  mains := some [⟨0, 2⟩, ⟨0, 5⟩]
  refusals := []

/-- Main documents are counted and handed on. -/
def handsOnMains : Settings :=
  { Settings.default with levels := 0, nested := true, mode := .ancestors, forwardHits := true }

/-- Hits of both main documents in turn, and one without. -/
def nestHits : List (Doc × Bucket) :=
  [(⟨0, 0⟩, 7), (⟨0, 3⟩, 7), (⟨0, 1⟩, 7), (⟨0, 6⟩, 7), (⟨0, 4⟩, 7)]

private theorem nestHits_taken : (nestHits.forM fun (hit, b) =>
    take handsOnMains nest.toPartition hit b : Step (Gatherer × Journal) Unit).Answers
      (⟨factsFor handsOnMains, forwardingFor handsOnMains, .empty, 0⟩, .start .unlimited)
      fun _ _ => True := by
  decide +kernel

/-- Each of the two main documents is handed on once for the bucket. -/
theorem takeEach_handsOn_nest : ∃ g g' j', start handsOnMains nest.toPartition = .ok g ∧
    (nestHits.forM fun (hit, b) => take handsOnMains nest.toPartition hit b :
      Step (Gatherer × Journal) Unit) (g, .start .unlimited) = .ok () (g', j') ∧
    j'.sink.taken.toList = [⟨7, ⟨0, 2⟩⟩, ⟨7, ⟨0, 5⟩⟩] := by
  have hstart : start handsOnMains nest.toPartition =
      .ok ⟨factsFor handsOnMains, forwardingFor handsOnMains, .empty, 0⟩ := rfl
  have hnone : (Journal.start .unlimited).sink.taken.toList = [] := rfl
  have hdues : (dues handsOnMains nest.toPartition nestHits).eraseDups =
      [⟨7, ⟨0, 2⟩⟩, ⟨7, ⟨0, 5⟩⟩] := by
    decide +kernel
  obtain ⟨⟨⟩, ⟨g', j'⟩, htakes, -⟩ := Step.answers_iff.1 nestHits_taken
  have htaken := ((takeEach_handsOn nestHits (.start .unlimited) hstart).2 g' j' htakes).2
  rw [hdues, hnone, List.nil_append] at htaken
  exact ⟨_, g', j', hstart, htakes, htaken⟩

end Gatherer

end Lineage
