import Lineage.Proofs.HitForwarding
import Lineage.Proofs.JoinCounts

/-!
# What runs amount to

A run without faults can be told by its hits alone: by the facts it gathers, by the numbers it
returns and by the pairs it hands on.  None of this depends on the order of the hits or on how many
gatherers they were spread over, so any two drivers of a pass can be compared through it.

## Main statements

- `Facts.OfHits`, `Facts.OfHits.merge`: the facts of hits, and of hits that were gathered apart;
- `Gatherer.forM_take_eq_ok`: what a gatherer makes of its hits;
- `Facts.OfHits.tally_eq_ok`: what follows from the facts of hits;
- `Pass.Runs.eq`: what a whole pass makes of its hits;
- `Pass.Runs.eq_empty`: a degraded pass counts nothing.
-/

namespace Lineage

variable {s : Settings} {p : Partition} {hits hits' : List (Doc × Bucket)}

/-! ## §1 The facts of hits -/

/-- Facts are exactly those of some hits. -/
def Facts.OfHits (s : Settings) (p : Partition) (hits : List (Doc × Bucket)) : Facts → Prop
  | .links table =>
    s.isDirect = false ∧ table.WellFormed ∧ ∀ b o, table.Links b o ↔ p.Roots s hits b o
  | .documents seen =>
    s.isDirect = true ∧ seen.WellFormed ∧ ∀ b doc, seen.Has b doc ↔ p.Targets s hits b doc

theorem Partition.roots_append {b : Bucket} {o : Ordinal} :
    p.Roots s (hits ++ hits') b o ↔ p.Roots s hits b o ∨ p.Roots s hits' b o := by
  simp only [Roots, List.mem_append, or_and_right, exists_or]

theorem Partition.targets_append {b : Bucket} {doc : Doc} :
    p.Targets s (hits ++ hits') b doc ↔ p.Targets s hits b doc ∨ p.Targets s hits' b doc := by
  simp only [Targets, List.mem_append, or_and_right, exists_or]

theorem Partition.roots_congr (hsame : ∀ hit, hit ∈ hits ↔ hit ∈ hits') :
    p.Roots s hits = p.Roots s hits' := by
  funext b o
  simp only [Roots, hsame]

theorem Partition.targets_congr (hsame : ∀ hit, hit ∈ hits ↔ hit ∈ hits') :
    p.Targets s hits = p.Targets s hits' := by
  funext b doc
  simp only [Targets, hsame]

/-- Facts do not depend on the order of the hits or on repeats. -/
theorem Facts.OfHits.congr {f : Facts} (h : f.OfHits s p hits)
    (hsame : ∀ hit, hit ∈ hits ↔ hit ∈ hits') : f.OfHits s p hits' := by
  -- either kind of facts is told by which hits there are
  cases f with
  | links table =>
    rw [OfHits, ← Partition.roots_congr hsame]
    exact h
  | documents seen =>
    rw [OfHits, ← Partition.targets_congr hsame]
    exact h

/-- Facts of hits gathered apart come together to the facts of all of them. -/
theorem Facts.OfHits.merge {f f' g : Facts} {a : Unit} (hf : f.OfHits s p hits)
    (hf' : f'.OfHits s p hits') (h : Facts.merge f' f = .ok a g) :
    g.OfHits s p (hits ++ hits') := by
  cases f with
  | links table =>
    cases f' with
    | links table' =>
      -- a merge adds the links of the other facts, and these are those of its hits
      obtain ⟨merged, rfl, hgains⟩ := merge_links_eq_ok hf'.2.1 h
      refine ⟨hf.1, hgains.wellFormed hf.2.1, fun b o => ?_⟩
      rw [hgains.links, hf.2.2, hf'.2.2, Partition.roots_append]
    | documents seen' =>
      -- the settings are the same for both, so the facts are of one kind
      cases hf.1.symm.trans hf'.1
  | documents seen =>
    cases f' with
    | links table' => cases hf.1.symm.trans hf'.1
    | documents seen' =>
      obtain ⟨merged, rfl, hgains⟩ := merge_documents_eq_ok hf'.2.1 h
      refine ⟨hf.1, hgains.wellFormed hf.2.1, fun b doc => ?_⟩
      rw [hgains.has, hf.2.2, hf'.2.2, Partition.targets_append]

/-! ## §2 Gatherers -/

/-- Under valid settings there is a level to climb, or main documents are counted. -/
theorem Settings.one_le_levels (hvalid : s.validate = .ok ()) (hdirect : s.isDirect = false) :
    1 ≤ s.levels := by
  by_contra hlevels
  have hzero : s.levels = 0 := by omega
  -- without levels there are no valid settings but those that count main documents
  cases hnested : s.nested with
  | true => simp [isDirect, hnested, hzero] at hdirect
  | false => simp [validate, hnested, hzero] at hvalid

namespace Gatherer

theorem close_eq_ok {g : Gatherer} {j k : Journal} {facts : Facts} (h : g.close j = .ok facts k) :
    facts = g.facts ∧ k.sink = j.sink := by
  obtain ⟨⟨⟩, r, hcount, hpure⟩ := Step.bind_eq_ok.1 h
  obtain ⟨rfl, rfl⟩ := Step.pure_eq_ok.1 hpure
  rw [Journal.count_eq_ok hcount]
  exact ⟨rfl, rfl⟩

/-- A run of hits without faults leaves their facts, and hands on what is due for them. -/
theorem forM_take_eq_ok {g g' : Gatherer} {j j' : Journal} {a : Unit}
    (hlevels : s.isDirect = false → 1 ≤ s.levels) (hstart : start s p = .ok g)
    (h : (hits.forM fun (hit, b) => take s p hit b : Step (Gatherer × Journal) Unit) (g, j) =
      .ok a (g', j')) :
    g'.facts.OfHits s p hits ∧
      j'.sink.taken.toList = j.sink.taken.toList ++ (dues s p hits).eraseDups := by
  constructor
  · cases hdirect : s.isDirect with
    | false =>
      obtain ⟨table, hheld⟩ := holds_forM_take
        (holds_start (hlevels hdirect) hstart) h
      rw [hheld.facts]
      exact ⟨hdirect, hheld.wellFormed, hheld.links⟩
    | true =>
      obtain ⟨seen, hheld⟩ := holdsDocuments_forM_take (holdsDocuments_start hdirect hstart) h
      rw [hheld.facts]
      exact ⟨hdirect, hheld.wellFormed, hheld.has⟩
  · obtain ⟨noted, hstarted⟩ := keepsUp_start hstart j
    obtain ⟨noted', hkept⟩ := keepsUp_forM_take hstarted h
    exact hkept.taken

end Gatherer

/-! ## §3 From facts to numbers and pairs -/

/-- Numbers by bucket are those of some hits: of their main documents where these are counted, and
else of the ordinals that they reach. -/
def Tally.CountsHits (t : Tally Bucket) (p : Partition) (s : Settings)
    (hits : List (Doc × Bucket)) : Prop :=
  if s.isDirect then t.CountsSets fun b => {doc | p.Targets s hits b doc}
  else t.CountsSets fun b => p.reachedSet s (p.Roots s hits b)

theorem Tally.CountsHits.unique {t u : Tally Bucket} (ht : t.CountsHits p s hits)
    (hu : u.CountsHits p s hits) : t = u := by
  unfold CountsHits at ht hu
  -- either way each number is the size of a set that the hits determine
  split at ht
  case isTrue hdirect =>
    rw [if_pos hdirect] at hu
    exact ht.unique hu
  case isFalse hjoin =>
    rw [if_neg hjoin] at hu
    exact ht.unique hu

/-- Numbers do not depend on the order of the hits or on repeats. -/
theorem Tally.CountsHits.congr {t : Tally Bucket} (h : t.CountsHits p s hits)
    (hsame : ∀ hit, hit ∈ hits ↔ hit ∈ hits') : t.CountsHits p s hits' := by
  rw [CountsHits, ← Partition.roots_congr hsame, ← Partition.targets_congr hsame]
  exact h

/-- Without hits there is nothing to count. -/
theorem Tally.countsHits_nil : Tally.empty.CountsHits p s [] := by
  unfold CountsHits
  split
  case isTrue =>
    intro b
    simp [Partition.Targets, Tally.empty, Tally.get]
  case isFalse => exact countsReached_empty fun b o => by simp [Partition.Roots]

/-- Climbing hands on an ancestor of the last level for a bucket. -/
def Partition.Delivers (p : Partition) (s : Settings) (hits : List (Doc × Bucket)) (b : Bucket)
    (doc : Doc) : Prop :=
  s.forwardHits = true ∧ s.mode = .ancestors ∧ s.isDirect = false ∧
    ∃ last, s.levels = last + 1 ∧
      FirstBrings (p.Brings (fun o b => p.Reaches (p.Roots s hits b) last o) last)
        (p.scan (last + 1)).docs b doc

/-- Only a climb over at least one level hands anything on, and then what the ancestors of the last
level are first to bring. -/
private theorem taken_of_run {table top : LinkTable} {j k : Journal} (hwf : table.WellFormed)
    (h : Ascent.run s p table j = .ok top k) :
    ∃ pairs, k.sink.taken.toList = j.sink.taken.toList ++ pairs ∧ pairs.Nodup ∧
      ∀ b doc, ⟨b, doc⟩ ∈ pairs ↔ s.forwardHits = true ∧ s.mode = .ancestors ∧
        ∃ last, s.levels = last + 1 ∧
          FirstBrings (p.Brings (fun o b => p.Reaches (table.Links b) last o) last)
            (p.scan (last + 1)).docs b doc := by
  -- without a level nothing is climbed, and nothing is handed on
  cases hlevels : s.levels with
  | zero =>
    simp only [Ascent.run, hlevels, if_true] at h
    obtain ⟨rfl, rfl⟩ := Step.pure_eq_ok.1 h
    exact ⟨[], by simp, List.nodup_nil, by simp⟩
  | succ last =>
    obtain ⟨byOrdinal, below, j', hconverse, hlower, hlast, hbelowWf, hbelow, -⟩ :=
      Ascent.run_succ_eq_ok hwf hlevels h
    obtain ⟨hwf', -, hlinks⟩ := LinkTable.converse_eq_ok hwf hconverse
    have hbottom (o : Ordinal) (b : Bucket) :
        byOrdinal.Links o b ↔ p.Reaches (table.Links b) 0 o := by
      rw [hlinks, Partition.reaches_zero]
    -- the lower levels leave the sink alone, so what is handed on is up to the last one
    obtain ⟨-, -, -, hkept⟩ := Ascent.lowerLevels_eq_ok hwf' hbottom hlower
    obtain ⟨-, -, pairs, -, htaken, hnodup, hmem⟩ := Ascent.lastLevel_eq_ok hbelowWf hbelow hlast
    refine ⟨pairs, hkept ▸ htaken, hnodup, fun b doc => ?_⟩
    rw [hmem]
    simp [and_assoc]

/-- Facts of hits lead to the numbers of those hits, and to the ancestors that climbing hands on for
them. -/
theorem Facts.OfHits.tally_eq_ok {facts : Facts} {tally : Tally Bucket} {j k : Journal}
    (hfacts : facts.OfHits s p hits) (h : facts.tally s p j = .ok tally k) :
    tally.CountsHits p s hits ∧ ∃ pairs, k.sink.taken.toList = j.sink.taken.toList ++ pairs ∧
      pairs.Nodup ∧ ∀ b doc, ⟨b, doc⟩ ∈ pairs ↔ p.Delivers s hits b doc := by
  unfold Tally.CountsHits
  cases facts with
  | documents seen =>
    obtain ⟨hdirect, hwf, hhas⟩ := hfacts
    obtain ⟨rfl, rfl⟩ := Step.pure_eq_ok.1 h
    rw [if_pos hdirect]
    refine ⟨?_, [], by simp, List.nodup_nil, by simp [Partition.Delivers, hdirect]⟩
    simpa only [hhas] using Sightings.counts_tally hwf
  | links table =>
    obtain ⟨hdirect, hwf, hlinks⟩ := hfacts
    have hroots : table.Links = p.Roots s hits := by
      funext b o
      exact propext (hlinks b o)
    rw [if_neg (by simp [hdirect])]
    refine ⟨hroots ▸ Facts.tally_links_eq_ok hwf h, ?_⟩
    by_cases hempty : table.isEmpty = true
    · -- nothing is climbed, and nothing would be brought
      simp only [Facts.tally, hempty, if_true] at h
      obtain ⟨-, rfl⟩ := Step.pure_eq_ok.1 h
      have hnone := LinkTable.not_links_of_isEmpty hwf hempty
      rw [hroots] at hnone
      refine ⟨[], by simp, List.nodup_nil, fun b doc => iff_of_false List.not_mem_nil ?_⟩
      rintro ⟨-, -, -, last, -, -, o, ⟨lower, -, hreached, -⟩, -⟩
      exact Partition.not_reaches_of_no_root (hnone b) hreached
    · simp only [Facts.tally, hempty] at h
      obtain ⟨top, r, hrun, hpure⟩ := Step.bind_eq_ok.1 h
      obtain ⟨-, rfl⟩ := Step.pure_eq_ok.1 hpure
      obtain ⟨pairs, htaken, hnodup, hmem⟩ := taken_of_run hwf hrun
      refine ⟨pairs, htaken, hnodup, fun b doc => ?_⟩
      rw [hmem, hroots]
      simp [Partition.Delivers, hdirect]

/-- The numbers that follow from facts, and the pairs that are handed on on the way to them. -/
def Facts.Finishes (s : Settings) (p : Partition) (facts : Facts) (tally : Tally Bucket)
    (pairs : List Handoff) : Prop :=
  ∃ j k, facts.tally s p j = .ok tally k ∧
    k.sink.taken.toList = j.sink.taken.toList ++ pairs

theorem Facts.Finishes.eq {facts : Facts} {tally : Tally Bucket} {pairs : List Handoff}
    (hfacts : facts.OfHits s p hits) (h : facts.Finishes s p tally pairs) :
    tally.CountsHits p s hits ∧ pairs.Nodup ∧
      ∀ b doc, ⟨b, doc⟩ ∈ pairs ↔ p.Delivers s hits b doc := by
  obtain ⟨j, k, htally, htaken⟩ := h
  obtain ⟨hcounts, pairs', htaken', hpairs⟩ := hfacts.tally_eq_ok htally
  obtain rfl : pairs = pairs' := List.append_cancel_left (htaken.symm.trans htaken')
  exact ⟨hcounts, hpairs⟩

/-! ## §4 All pairs of a run -/

/-- The pairs handed on over a whole run: those that are due for its hits and the ancestors that
climbing hands on for them, and none of them twice. -/
structure HandsOnAll (s : Settings) (p : Partition) (hits : List (Doc × Bucket))
    (pairs : List Handoff) : Prop where
  nodup : pairs.Nodup
  mem_iff : ∀ pair, pair ∈ pairs ↔
    pair ∈ Gatherer.dues s p hits ∨ p.Delivers s hits pair.bucket pair.doc

/-- Where climbing hands ancestors on, hits are not. -/
theorem Partition.Delivers.due_eq_none {b : Bucket} {doc : Doc} (h : p.Delivers s hits b doc)
    (hit : Doc) (b' : Bucket) : Gatherer.due s p hit b' = none := by
  obtain ⟨hforward, hmode, hdirect, -⟩ := h
  simp [Gatherer.due, hforward, hmode, hdirect]

/-- What is handed on while gathering and what is handed on in the end make up the whole. -/
theorem HandsOnAll.of_append {gathered final : List Handoff} (hgathered : gathered.Nodup)
    (hdue : ∀ pair, pair ∈ gathered ↔ pair ∈ Gatherer.dues s p hits) (hfinal : final.Nodup)
    (hdelivered : ∀ b doc, ⟨b, doc⟩ ∈ final ↔ p.Delivers s hits b doc) :
    HandsOnAll s p hits (gathered ++ final) where
  nodup := by
    apply hgathered.append hfinal
    -- a pair of both kinds would be due for a hit although climbing hands ancestors on
    intro pair hpair hpair'
    obtain ⟨hit, -, hpairDue⟩ := List.mem_filterMap.1 ((hdue pair).1 hpair)
    have hnone := ((hdelivered pair.bucket pair.doc).1 hpair').due_eq_none hit.1 hit.2
    simp [hnone] at hpairDue
  mem_iff pair := by rw [List.mem_append, hdue, ← hdelivered]

theorem Partition.Delivers.congr {b : Bucket} {doc : Doc} (h : p.Delivers s hits b doc)
    (hsame : ∀ hit, hit ∈ hits ↔ hit ∈ hits') : p.Delivers s hits' b doc := by
  rw [Delivers, ← roots_congr hsame]
  exact h

/-- Two runs over the same hits hand on the same pairs, if not in the same order. -/
theorem HandsOnAll.perm {pairs pairs' : List Handoff} (h : HandsOnAll s p hits pairs)
    (h' : HandsOnAll s p hits' pairs') (hsame : ∀ hit, hit ∈ hits ↔ hit ∈ hits') :
    pairs.Perm pairs' := by
  -- lists without repeats are the same up to order if they have the same members
  rw [List.perm_ext_iff_of_nodup h.nodup h'.nodup]
  intro pair
  rw [h.mem_iff, h'.mem_iff]
  have hdues : pair ∈ Gatherer.dues s p hits ↔ pair ∈ Gatherer.dues s p hits' := by
    simp only [Gatherer.dues, List.mem_filterMap, hsame]
  have hdelivers : p.Delivers s hits pair.bucket pair.doc ↔
      p.Delivers s hits' pair.bucket pair.doc :=
    ⟨fun hpair => hpair.congr hsame, fun hpair => hpair.congr fun hit => (hsame hit).symm⟩
  rw [hdues, hdelivers]

/-! ## §5 Whole passes -/

namespace Pass

/-- A pass takes some hits, to whatever sink: whether it is degraded, the numbers that it returns
and the pairs that it hands on. -/
def Runs (s : Settings) (p : Partition) (hits : List (Doc × Bucket)) (degraded : Bool)
    (tally : Tally Bucket) (pairs : List Handoff) : Prop :=
  ∃ pass pass' j j₁ j₂ j₃, start s (.ok p) j = .ok pass j₁ ∧ pass.isDegraded = degraded ∧
    (hits.forM fun (hit, b) => take hit b : Step (Pass × Journal) Unit) (pass, j₁) =
      .ok () (pass', j₂) ∧
    pass'.close j₂ = .ok tally j₃ ∧ j₃.sink.taken.toList = j.sink.taken.toList ++ pairs

/-- A pass that can be carried out runs. -/
theorem runs_of_answers {degraded : Bool} {P : Tally Bucket → List Handoff → Prop}
    (h : (start s (.ok p)).Answers (.start .unlimited) fun pass j =>
      pass.isDegraded = degraded ∧
        (hits.forM fun (hit, b) => take hit b : Step (Pass × Journal) Unit).Answers (pass, j)
          fun _ taken => taken.1.close.Answers taken.2 fun tally k =>
            P tally k.sink.taken.toList) :
    ∃ tally pairs, Runs s p hits degraded tally pairs ∧ P tally pairs := by
  obtain ⟨pass, j₁, hstart, hdegraded, hrest⟩ := Step.answers_iff.1 h
  obtain ⟨⟨⟩, ⟨pass', j₂⟩, htakes, hrest⟩ := Step.answers_iff.1 hrest
  obtain ⟨tally, j₃, hclose, hP⟩ := Step.answers_iff.1 hrest
  exact ⟨tally, j₃.sink.taken.toList,
    ⟨pass, pass', .start .unlimited, j₁, j₂, j₃, hstart, hdegraded, htakes, hclose,
      by simp [Journal.start, Sink.unlimited]⟩, hP⟩

/-- A pass that is not degraded takes its hits as its gatherer does. -/
theorem forM_take_eq_ok {g : Gatherer} {pass : Pass} {j k : Journal} {a : Unit}
    (h : (hits.forM fun (hit, b) => take hit b : Step (Pass × Journal) Unit)
      (⟨s, some (p, g)⟩, j) = .ok a (pass, k)) :
    ∃ g', (hits.forM fun (hit, b) => Gatherer.take s p hit b : Step (Gatherer × Journal) Unit)
      (g, j) = .ok () (g', k) ∧ pass = ⟨s, some (p, g')⟩ := by
  induction hits generalizing g j with
  | nil =>
    obtain ⟨-, hsame⟩ := Step.pure_eq_ok.1 h
    obtain ⟨rfl, rfl⟩ := Prod.mk.inj hsame
    exact ⟨g, rfl, rfl⟩
  | cons hit hits ih =>
    obtain ⟨⟨⟩, ⟨pass₁, j₁⟩, htake, hrest⟩ := Step.bind_eq_ok.1 h
    obtain ⟨g₁, htaken, rfl⟩ := take_eq_ok htake
    obtain ⟨g', htakes, hpass⟩ := ih hrest
    exact ⟨g', Step.bind_eq_ok.2 ⟨(), (g₁, j₁), htaken, htakes⟩, hpass⟩

variable {tally : Tally Bucket} {pairs : List Handoff}

/-- A pass that is not degraded has gathered the facts of its hits when it finishes, and has handed
on what is due for them; the rest is handed on in the end. -/
theorem Runs.gathered (h : Runs s p hits false tally pairs) :
    s.validate = .ok () ∧ ∃ (facts : Facts) (final : List Handoff), facts.OfHits s p hits ∧
      facts.Finishes s p tally final ∧
      pairs = (Gatherer.dues s p hits).eraseDups ++ final := by
  obtain ⟨pass, pass', j, j₁, j₂, j₃, hstart, hrunning, htakes, hclose, htaken⟩ := h
  obtain ⟨found, r, hsettle, hrest⟩ := Step.bind_eq_ok.1 hstart
  have hsink : r.sink = j.sink := (settle_found hsettle).2
  -- a degraded pass is excluded, so the settled partition is the one that was opened
  cases found with
  | none =>
    obtain ⟨rfl, -⟩ := Step.pure_eq_ok.1 hrest
    simp [isDegraded] at hrunning
  | some q =>
    obtain ⟨hvalid, hopened, -⟩ := settle_eq_ok hsettle
    obtain rfl : p = q := Except.ok.inj hopened
    obtain ⟨g, r', hg, hpure⟩ := Step.bind_eq_ok.1 hrest
    obtain ⟨rfl, rfl⟩ := Step.pure_eq_ok.1 hpure
    obtain ⟨hgatherer, rfl⟩ := Step.ofExcept_eq_ok.1 hg
    obtain ⟨g', htaken', rfl⟩ := forM_take_eq_ok htakes
    obtain ⟨facts, k, hgathered, htally⟩ := Step.bind_eq_ok.1 hclose
    obtain ⟨hfacts, hdue⟩ := Gatherer.forM_take_eq_ok (s.one_le_levels hvalid) hgatherer htaken'
    obtain ⟨rfl, hclosed⟩ := Gatherer.close_eq_ok hgathered
    obtain ⟨-, final, hfinal, -⟩ := hfacts.tally_eq_ok htally
    -- the sink is the caller's until the first hit, and closing the gatherer leaves it alone
    rw [hfinal, hclosed, hdue, hsink, List.append_assoc] at htaken
    exact ⟨hvalid, _, final, hfacts, ⟨k, j₃, htally, hfinal⟩,
      (List.append_cancel_left htaken).symm⟩

/-- A degraded pass takes its hits without a gatherer. -/
theorem active_eq_none_of_forM_take {pass pass' : Pass} {j k : Journal} {a : Unit}
    (hdegraded : pass.active = none)
    (h : (hits.forM fun (hit, b) => take hit b : Step (Pass × Journal) Unit) (pass, j) =
      .ok a (pass', k)) : pass'.active = none := by
  -- no hit gives a pass a gatherer that it did not have
  refine Step.forM_induction (fun _ st => st.1.active = none) hdegraded ?carry h
  case carry =>
    intro done hit rest st st' _ hnone htake
    obtain ⟨r, r', hget, hrest⟩ := Step.bind_eq_ok.1 htake
    obtain ⟨rfl, rfl⟩ := Step.get_eq_ok.1 hget
    simp only [hnone] at hrest
    obtain ⟨-, rfl⟩ := Step.pure_eq_ok.1 hrest
    exact hnone

/-- A degraded pass counts nothing. -/
theorem Runs.eq_empty (h : Runs s p hits true tally pairs) : tally = .empty := by
  obtain ⟨pass, pass', j, j₁, j₂, j₃, -, hdegraded, htakes, hclose, -⟩ := h
  have hnone := active_eq_none_of_forM_take (Option.isNone_iff_eq_none.1 hdegraded) htakes
  simp only [close, hnone] at hclose
  exact (Step.pure_eq_ok.1 hclose).1.symm

/-- A pass that is not degraded returns the numbers of its hits, and hands on all that is due for
them or found by climbing. -/
theorem Runs.eq (h : Runs s p hits false tally pairs) :
    tally.CountsHits p s hits ∧ HandsOnAll s p hits pairs := by
  obtain ⟨-, facts, final, hfacts, hfinishes, rfl⟩ := h.gathered
  obtain ⟨hcounts, hnodup, hdelivered⟩ := hfinishes.eq hfacts
  exact ⟨hcounts, .of_append (nodup_eraseDups _) (fun _ => List.mem_eraseDups) hnodup hdelivered⟩

end Pass

end Lineage
