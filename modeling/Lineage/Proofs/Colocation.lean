import Lineage.Proofs.Listings
import Lineage.Proofs.Runs

/-!
# Adding up the numbers of two partitions

Two partitions over different segments can be run over as one: documents are asked for where they
are stored, and every walk goes over the first partition and then over the second.  The numbers of
the whole are the sums of the numbers of the two if no ordinal is carried on both sides at any
level.  Then what the two sides reach never mixes: an ancestor of one side carries nothing that the
other side has reached.  Main documents that are counted directly cannot mix in the first place.

All of this is about passes that run.  If one of the three is degraded, it counts nothing, and the
others may well count something.

## Main statements

- `Ascent.ending_of_run`, `Pass.Runs.ending`: a pass that answers has walked to the end over every
  level above what it has reached;
- `Partition.Beside`, `Partition.beside_besides`: two partitions run over as one;
- `Partition.Beside.reaches_iff`: what the whole reaches is what one of the two reaches;
- `Partition.Beside.tally_eq_sum`: the numbers add up.
-/

namespace Lineage

/-! ## §1 Walks come to their ends -/

theorem Transition.ending_of_climb {handingOn : Bool} {p : Partition} {level : Level}
    {below above : LinkTable} {j k : Journal} (h : climb handingOn p level below j = .ok above k) :
    (p.scan (level + 1)).ending = .ok () := by
  obtain ⟨-, -, -, -, hending, -, -⟩ := walk_of_climb h
  exact hending

namespace Ascent

variable {p : Partition} {roots : Bucket → Ordinal → Prop}

/-- Whatever is reached on the way is climbed from, so the walk over the next level has ended well.
The induction is over the levels still to climb. -/
theorem ending_of_climbFrom {handingOn : Bool} {n : Nat} {level : Level} {table top : LinkTable}
    {j k : Journal} (hwf : table.WellFormed)
    (htable : ∀ o b, table.Links o b ↔ p.Reaches (roots b) level o)
    (h : climbFrom handingOn p n level table j = .ok top k) {m : Nat} (hm : m < n) {b : Bucket}
    {o : Ordinal} (hreached : p.Reaches (roots b) (level + m) o) :
    (p.scan (level + m + 1)).ending = .ok () := by
  induction n generalizing level table j m with
  -- the level climbed from is the first of those asked about; the others are the next table's
  | zero => exact absurd hm (Nat.not_lt_zero m)
  | succ n ih =>
    unfold climbFrom at h
    by_cases hempty : table.isEmpty = true
    · -- nothing is reached from an empty table
      exact absurd hreached (not_reaches_of_isEmpty hwf hempty htable m o b)
    · simp only [hempty] at h
      obtain ⟨above, r, hclimb, hrest⟩ := Step.bind_eq_ok.1 h
      cases m with
      | zero => exact Transition.ending_of_climb hclimb
      | succ m =>
        obtain ⟨pairs, hclimbed⟩ := Transition.climb_eq_ok hwf hclimb
        have hnext : level + (m + 1) = level + 1 + m := Nat.add_right_comm level m 1
        rw [hnext] at hreached ⊢
        exact ih hclimbed.wellFormed (hclimbed.reaches htable) hrest (Nat.lt_of_succ_lt_succ hm)
          hreached

/-- In a climb from buckets that answers, the walk over a level has come to its end if anything is
reached at the level below. -/
theorem ending_of_run {s : Settings} {table top : LinkTable} {j k : Journal}
    (hwf : table.WellFormed) (h : run s p table j = .ok top k) {level : Level}
    (hlevel : level < s.levels) {b : Bucket} {o : Ordinal}
    (hreached : p.Reaches (table.Links b) level o) : (p.scan (level + 1)).ending = .ok () := by
  have hsome : s.levels ≠ 0 := Nat.ne_zero_of_lt hlevel
  simp only [run, hsome, if_false] at h
  obtain ⟨byOrdinal, r, hconverse, hclimb⟩ := Step.bind_eq_ok.1 h
  obtain ⟨hbyOrdinal, rfl⟩ := Step.ofExcept_eq_ok.1 hconverse
  obtain ⟨hwf', -, hlinks⟩ := LinkTable.converse_eq_ok hwf hbyOrdinal
  have hbottom (o : Ordinal) (b : Bucket) :
      byOrdinal.Links o b ↔ p.Reaches (table.Links b) 0 o := by
    rw [hlinks, Partition.reaches_zero]
  -- the climb starts at level 0, where the table turned around says what is reached
  rw [← Nat.zero_add level] at hreached ⊢
  exact ending_of_climbFrom hwf' hbottom hclimb hlevel hreached

end Ascent

variable {s : Settings} {p : Partition} {hits : List (Doc × Bucket)}

/-- In a run that answers, the walk over a level has come to its end if anything is reached at the
level below. -/
theorem Pass.Runs.ending {tally : Tally Bucket} {pairs : List Handoff}
    (h : Pass.Runs s p hits false tally pairs) (hdirect : s.isDirect = false) {level : Level}
    (hlevel : level < s.levels) {b : Bucket} {o : Ordinal}
    (hreached : p.Reaches (p.Roots s hits b) level o) :
    (p.scan (level + 1)).ending = .ok () := by
  obtain ⟨-, facts, -, hfacts, ⟨j, k, htally, -⟩, -⟩ := h.gathered
  -- facts of main documents are not climbed from
  cases facts with
  | documents seen => simp [hfacts.1] at hdirect
  | links table =>
    obtain ⟨-, hwf, hlinks⟩ := hfacts
    have hroots : p.Roots s hits b = table.Links b := by
      funext o
      exact propext (hlinks b o).symm
    rw [hroots] at hreached
    by_cases hempty : table.isEmpty = true
    · -- no pass climbs from an empty table, and nothing is reached from it
      have hnone := LinkTable.not_links_of_isEmpty hwf hempty b
      exact absurd hreached (Partition.not_reaches_of_no_root hnone)
    · simp only [Facts.tally, hempty] at htally
      obtain ⟨top, r, hrun, -⟩ := Step.bind_eq_ok.1 htally
      exact Ascent.ending_of_run hwf hrun hlevel hreached

/-! ## §2 Two partitions run over as one -/

/-- One walk and then another, which begins only if the first has come to its end. -/
def Visits.followedBy (v w : Visits) : Visits :=
  match v.ending with
  | .ok () => ⟨v.docs ++ w.docs, w.ending⟩
  | .error fault => ⟨v.docs, .error fault⟩

namespace Visits

variable {v w : Visits} {doc : Doc}

theorem mem_followedBy (h : doc ∈ (v.followedBy w).docs) : doc ∈ v.docs ∨ doc ∈ w.docs := by
  unfold followedBy at h
  split at h
  case h_1 => exact List.mem_append.1 h
  case h_2 => exact .inl h

theorem mem_followedBy_left (h : doc ∈ v.docs) : doc ∈ (v.followedBy w).docs := by
  unfold followedBy
  split
  case h_1 => exact List.mem_append_left _ h
  case h_2 => exact h

theorem mem_followedBy_right (hending : (v.followedBy w).ending = .ok ()) (h : doc ∈ w.docs) :
    doc ∈ (v.followedBy w).docs := by
  unfold followedBy at hending ⊢
  split at hending
  case h_1 => exact List.mem_append_right _ h
  case h_2 => cases hending

end Visits

namespace Partition

/-- All that a partition leads to from documents of some segments is in these segments: the main
documents of hits there, and the documents of its walks. -/
structure Within (q : Partition) (own : SegmentId → Prop) : Prop where
  main_own : ∀ hit doc, own hit.segment → q.mainDocument.bind (· hit) = some doc → own doc.segment
  scan_own : ∀ level, ∀ doc ∈ (q.scan level).docs, own doc.segment

/-- A partition is asked through another one for the documents of its own segments, which have the
same keys and the same main documents there. -/
structure Side (p q : Partition) (own : SegmentId → Prop) : Prop extends Within q own where
  keys : ∀ level doc, own doc.segment → p.keys level doc = q.keys level doc
  main : ∀ hit, own hit.segment → p.mainDocument.bind (· hit) = q.mainDocument.bind (· hit)

/-- Two partitions over different segments, run over as one: documents are asked for where they are
stored, and walks go over the first partition and then over the second. -/
structure Beside (p p₁ p₂ : Partition) (own₁ own₂ : SegmentId → Prop) : Prop where
  disjoint : ∀ segment, own₁ segment → ¬own₂ segment
  first : p.Side p₁ own₁
  second : p.Side p₂ own₂
  scan : ∀ level, p.scan level = (p₁.scan level).followedBy (p₂.scan level)

/-- Two partitions as one, of which the first owns some segments and the second all others. -/
def besides (owns : SegmentId → Bool) (p₁ p₂ : Partition) : Partition where
  keys level doc := if owns doc.segment then p₁.keys level doc else p₂.keys level doc
  checkLevel level := do
    p₁.checkLevel level
    p₂.checkLevel level
  scan level := (p₁.scan level).followedBy (p₂.scan level)
  mainDocument := some fun hit =>
    if owns hit.segment then p₁.mainDocument.bind (· hit) else p₂.mainDocument.bind (· hit)

theorem beside_besides {owns : SegmentId → Bool} {p₁ p₂ : Partition}
    (h₁ : p₁.Within fun segment => owns segment = true)
    (h₂ : p₂.Within fun segment => owns segment = false) :
    (besides owns p₁ p₂).Beside p₁ p₂ (fun segment => owns segment = true)
      (fun segment => owns segment = false) where
  disjoint segment hown₁ hown₂ := by simp [hown₁] at hown₂
  first := {
    h₁ with
    keys := fun level doc hown => by simp [besides, hown]
    main := fun hit hown => by simp [besides, hown] }
  second := {
    h₂ with
    keys := fun level doc hown => by simp [besides, hown]
    main := fun hit hown => by simp [besides, hown] }
  scan _ := rfl

/-- The documents that a run meets: those that its hits count under and those of its walks. -/
def Meets (p : Partition) (s : Settings) (hits : List (Doc × Bucket)) (doc : Doc) : Prop :=
  (∃ b, p.Targets s hits b doc) ∨
    ∃ level, 1 ≤ level ∧ level ≤ s.levels ∧ doc ∈ (p.scan level).docs

/-- At no level is an ordinal carried on both sides by documents that the runs meet. -/
def Colocated (s : Settings) (p₁ p₂ : Partition) (hits₁ hits₂ : List (Doc × Bucket)) : Prop :=
  ∀ level ≤ s.levels, ∀ doc₁ doc₂ o, p₁.Meets s hits₁ doc₁ → p₂.Meets s hits₂ doc₂ →
    p₁.Carries level doc₁ o → ¬p₂.Carries level doc₂ o

theorem Colocated.symm {p₁ p₂ : Partition} {hits₁ hits₂ : List (Doc × Bucket)}
    (h : Colocated s p₁ p₂ hits₁ hits₂) : Colocated s p₂ p₁ hits₂ hits₁ :=
  fun level hlevel doc₂ doc₁ o hmeets₂ hmeets₁ hcarries₂ hcarries₁ =>
    h level hlevel doc₁ doc₂ o hmeets₁ hmeets₂ hcarries₁ hcarries₂

/-! ## §3 One side -/

section Side

variable {q : Partition} {own : SegmentId → Prop}

theorem Side.target (h : p.Side q own) {hit : Doc} (hown : own hit.segment) :
    p.target s hit = q.target s hit := by
  unfold Partition.target
  rw [h.main hit hown]

/-- What a hit of a side counts under is of that side. -/
theorem Side.target_own (h : p.Side q own) {hit doc : Doc} (hown : own hit.segment)
    (htarget : q.target s hit = some doc) : own doc.segment := by
  unfold Partition.target at htarget
  split at htarget
  case isTrue => exact h.main_own hit doc hown htarget
  -- without nesting a hit counts under itself
  case isFalse => exact Option.some.inj htarget ▸ hown

theorem Side.carries (h : p.Side q own) {level : Level} {doc : Doc} {o : Ordinal}
    (hown : own doc.segment) : p.Carries level doc o ↔ q.Carries level doc o := by
  unfold Carries
  rw [h.keys level doc hown]

theorem Side.targets (h : p.Side q own) (hhits : ∀ hit ∈ hits, own hit.1.segment) {b : Bucket}
    {doc : Doc} : p.Targets s hits b doc ↔ q.Targets s hits b doc := by
  unfold Targets
  apply exists_congr
  intro hit
  apply and_congr_right
  intro hmem
  rw [h.target (hhits _ hmem)]

theorem Side.targets_own (h : p.Side q own) (hhits : ∀ hit ∈ hits, own hit.1.segment) {b : Bucket}
    {doc : Doc} (htargets : q.Targets s hits b doc) : own doc.segment := by
  obtain ⟨hit, hmem, htarget⟩ := htargets
  exact h.target_own (hhits _ hmem) htarget

theorem roots_iff {b : Bucket} {o : Ordinal} :
    q.Roots s hits b o ↔ ∃ doc, q.Targets s hits b doc ∧ q.Carries 0 doc o := by
  constructor
  · rintro ⟨hit, doc, hmem, htarget, hcarries⟩
    exact ⟨doc, ⟨hit, hmem, htarget⟩, hcarries⟩
  · rintro ⟨doc, ⟨hit, hmem, htarget⟩, hcarries⟩
    exact ⟨hit, doc, hmem, htarget, hcarries⟩

theorem Side.roots (h : p.Side q own) (hhits : ∀ hit ∈ hits, own hit.1.segment) {b : Bucket}
    {o : Ordinal} : p.Roots s hits b o ↔ q.Roots s hits b o := by
  rw [roots_iff, roots_iff]
  apply exists_congr
  intro doc
  rw [h.targets hhits]
  apply and_congr_right
  intro htargets
  exact h.carries (h.targets_own hhits htargets)

/-- What a side reaches, the whole reaches, as long as it meets what the side meets. -/
theorem Side.reaches (h : p.Side q own) {roots roots' : Ordinal → Prop} {n : Nat}
    (hroots : ∀ o, roots o → roots' o)
    (hscan : ∀ level o, level < n → p.Reaches roots' level o →
      ∀ doc ∈ (q.scan (level + 1)).docs, doc ∈ (p.scan (level + 1)).docs)
    {level : Level} {o : Ordinal} (hlevel : level ≤ n) (hreaches : q.Reaches roots level o) :
    p.Reaches roots' level o := by
  induction hreaches with
  | root hroot => exact .root (hroots _ hroot)
  | @join level o o' doc _ hdoc hlower hupper ih =>
    have hbelow := ih (Nat.le_of_lt hlevel)
    -- an ancestor of the side's walk is of the side, so both partitions have the same keys for it
    have hown := h.scan_own _ doc hdoc
    exact .join hbelow (hscan level o hlevel hbelow doc hdoc) ((h.carries hown).2 hlower)
      ((h.carries hown).2 hupper)

/-- What is reached is carried by a document that the run meets. -/
theorem exists_meets_of_reaches {b : Bucket} {level : Level} {o : Ordinal}
    (hlevel : level ≤ s.levels) (h : q.Reaches (q.Roots s hits b) level o) :
    ∃ doc, q.Meets s hits doc ∧ q.Carries level doc o := by
  cases h with
  | root hroot =>
    obtain ⟨doc, htargets, hcarries⟩ := roots_iff.1 hroot
    exact ⟨doc, .inl ⟨b, htargets⟩, hcarries⟩
  | join _ hdoc _ hupper =>
    -- the ancestor through which it is reached is a document of the walk
    exact ⟨_, .inr ⟨_, Nat.succ_le_succ (Nat.zero_le _), hlevel, hdoc⟩, hupper⟩

end Side

/-! ## §4 Both sides -/

variable {p₁ p₂ : Partition} {own₁ own₂ : SegmentId → Prop} {hits₁ hits₂ : List (Doc × Bucket)}

/-- What a side has reached is not carried by what the other side meets. -/
private theorem Colocated.not_carries (h : Colocated s p₁ p₂ hits₁ hits₂) {level : Level}
    (hlevel : level ≤ s.levels) {b : Bucket} {o : Ordinal} {doc : Doc}
    (hreaches : p₁.Reaches (p₁.Roots s hits₁ b) level o) (hmeets : p₂.Meets s hits₂ doc) :
    ¬p₂.Carries level doc o := by
  -- what is reached is carried by a document that the side has met
  obtain ⟨doc₁, hmeets₁, hcarries₁⟩ := exists_meets_of_reaches hlevel hreaches
  exact h level hlevel doc₁ doc o hmeets₁ hmeets hcarries₁

/-- Under colocation the whole reaches what one of the two sides reaches.  The induction is over the
levels: an ancestor of one side carries nothing below that only the other side has reached. -/
theorem Beside.reaches_imp (h : p.Beside p₁ p₂ own₁ own₂)
    (hhits₁ : ∀ hit ∈ hits₁, own₁ hit.1.segment) (hhits₂ : ∀ hit ∈ hits₂, own₂ hit.1.segment)
    (hcolocated : Colocated s p₁ p₂ hits₁ hits₂) {b : Bucket} {level : Level} {o : Ordinal}
    (hlevel : level ≤ s.levels) (hreaches : p.Reaches (p.Roots s (hits₁ ++ hits₂) b) level o) :
    p₁.Reaches (p₁.Roots s hits₁ b) level o ∨ p₂.Reaches (p₂.Roots s hits₂ b) level o := by
  induction hreaches with
  | root hroot =>
    rcases roots_append.1 hroot with hroot | hroot
    · exact .inl (.root ((h.first.roots hhits₁).1 hroot))
    · exact .inr (.root ((h.second.roots hhits₂).1 hroot))
  | @join level o o' doc _ hdoc hlower hupper ih =>
    have hbelow : level ≤ s.levels := Nat.le_of_lt hlevel
    -- ancestors that are walked over are documents that the run meets
    have hmet (q : Partition) (hits : List (Doc × Bucket))
        (hscanned : doc ∈ (q.scan (level + 1)).docs) : q.Meets s hits doc :=
      .inr ⟨level + 1, Nat.succ_le_succ (Nat.zero_le _), hlevel, hscanned⟩
    rw [h.scan] at hdoc
    -- the ancestor is of one side, and what it carries below was reached on this side
    rcases Visits.mem_followedBy hdoc with hdoc | hdoc
    · have hown := h.first.scan_own _ doc hdoc
      rw [h.first.carries hown] at hlower hupper
      rcases ih hbelow with hreached | hreached
      · exact .inl (.join hreached hdoc hlower hupper)
      · exact absurd hlower (hcolocated.symm.not_carries hbelow hreached (hmet p₁ hits₁ hdoc))
    · have hown := h.second.scan_own _ doc hdoc
      rw [h.second.carries hown] at hlower hupper
      rcases ih hbelow with hreached | hreached
      · exact absurd hlower (hcolocated.not_carries hbelow hreached (hmet p₂ hits₂ hdoc))
      · exact .inr (.join hreached hdoc hlower hupper)

/-- Under colocation, and if the walks of the whole come to their ends, the whole reaches exactly
what the two sides reach. -/
theorem Beside.reaches_iff (h : p.Beside p₁ p₂ own₁ own₂)
    (hhits₁ : ∀ hit ∈ hits₁, own₁ hit.1.segment) (hhits₂ : ∀ hit ∈ hits₂, own₂ hit.1.segment)
    (hcolocated : Colocated s p₁ p₂ hits₁ hits₂) {b : Bucket}
    (hending : ∀ level o, level < s.levels →
      p.Reaches (p.Roots s (hits₁ ++ hits₂) b) level o → (p.scan (level + 1)).ending = .ok ())
    (o : Ordinal) :
    p.Reaches (p.Roots s (hits₁ ++ hits₂) b) s.levels o ↔
      p₁.Reaches (p₁.Roots s hits₁ b) s.levels o ∨
        p₂.Reaches (p₂.Roots s hits₂ b) s.levels o := by
  constructor
  · exact h.reaches_imp hhits₁ hhits₂ hcolocated (Nat.le_refl _)
  · intro hreaches
    rcases hreaches with hreaches | hreaches
    · -- the first walk of a level is gone over in any case
      refine h.first.reaches (fun o hroot => ?_) (fun level o _ _ doc hdoc => ?_) (Nat.le_refl _)
        hreaches
      · exact roots_append.2 (.inl ((h.first.roots hhits₁).2 hroot))
      · rw [h.scan]
        exact Visits.mem_followedBy_left hdoc
    · refine h.second.reaches (fun o hroot => ?_) (fun level o hlevel hreached doc hdoc => ?_)
        (Nat.le_refl _) hreaches
      · exact roots_append.2 (.inr ((h.second.roots hhits₂).2 hroot))
      · -- the second walk is only gone on if the first has come to its end
        have hend := hending level o hlevel hreached
        rw [h.scan] at hend ⊢
        exact Visits.mem_followedBy_right hend hdoc

/-! ## §5 The numbers -/

/-- What hits count under is finite, as they are. -/
theorem finite_targets {b : Bucket} : {doc | p.Targets s hits b doc}.Finite := by
  apply (List.finite_toSet (hits.filterMap fun hit => p.target s hit.1)).subset
  rintro doc ⟨hit, hmem, htarget⟩
  exact List.mem_filterMap.2 ⟨(hit, b), hmem, htarget⟩

/-- The numbers of the whole where main documents are counted: the two sides have none in common. -/
private theorem Beside.sum_of_direct (h : p.Beside p₁ p₂ own₁ own₂)
    (hhits₁ : ∀ hit ∈ hits₁, own₁ hit.1.segment) (hhits₂ : ∀ hit ∈ hits₂, own₂ hit.1.segment)
    {t t₁ t₂ : Tally Bucket} (ht : t.CountsSets fun b => {doc | p.Targets s (hits₁ ++ hits₂) b doc})
    (ht₁ : t₁.CountsSets fun b => {doc | p₁.Targets s hits₁ b doc})
    (ht₂ : t₂.CountsSets fun b => {doc | p₂.Targets s hits₂ b doc}) : t = .sum [t₁, t₂] := by
  -- each hit counts in the whole under what it counts under on its side
  have hunion (b : Bucket) : {doc | p.Targets s (hits₁ ++ hits₂) b doc} =
      {doc | p₁.Targets s hits₁ b doc} ∪ {doc | p₂.Targets s hits₂ b doc} := by
    ext doc
    simp only [Set.mem_union, Set.mem_ofPred_eq]
    rw [targets_append, h.first.targets hhits₁, h.second.targets hhits₂]
  simp only [hunion] at ht
  refine ht₁.eq_sum ht₂ ht (fun b doc hdoc₁ hdoc₂ => ?_) (fun _ => finite_targets)
    (fun _ => finite_targets)
  -- a document of both sides would be in a segment of both
  exact h.disjoint _ (h.first.targets_own hhits₁ hdoc₁) (h.second.targets_own hhits₂ hdoc₂)

/-- The numbers of the whole where levels are climbed: under colocation the two sides reach nothing
in common. -/
private theorem Beside.sum_of_join (h : p.Beside p₁ p₂ own₁ own₂)
    (hhits₁ : ∀ hit ∈ hits₁, own₁ hit.1.segment) (hhits₂ : ∀ hit ∈ hits₂, own₂ hit.1.segment)
    (hcolocated : Colocated s p₁ p₂ hits₁ hits₂)
    (hending : ∀ b level o, level < s.levels →
      p.Reaches (p.Roots s (hits₁ ++ hits₂) b) level o → (p.scan (level + 1)).ending = .ok ())
    {t t₁ t₂ : Tally Bucket}
    (ht : t.CountsSets fun b => p.reachedSet s (p.Roots s (hits₁ ++ hits₂) b))
    (ht₁ : t₁.CountsSets fun b => p₁.reachedSet s (p₁.Roots s hits₁ b))
    (ht₂ : t₂.CountsSets fun b => p₂.reachedSet s (p₂.Roots s hits₂ b)) : t = .sum [t₁, t₂] := by
  have hunion (b : Bucket) : p.reachedSet s (p.Roots s (hits₁ ++ hits₂) b) =
      p₁.reachedSet s (p₁.Roots s hits₁ b) ∪ p₂.reachedSet s (p₂.Roots s hits₂ b) := by
    ext o
    exact h.reaches_iff hhits₁ hhits₂ hcolocated (hending b) o
  simp only [hunion] at ht
  refine ht₁.eq_sum ht₂ ht (fun b o ho₁ ho₂ => ?_) (fun _ => finite_reachedSet ..)
    (fun _ => finite_reachedSet ..)
  -- an ordinal reached on both sides would be carried on both at the last level
  obtain ⟨doc, hmeets, hcarries⟩ := exists_meets_of_reaches (Nat.le_refl _) ho₂
  exact hcolocated.not_carries (Nat.le_refl _) ho₁ hmeets hcarries

/-- Numbers add up.  Two partitions over different segments are run over as one, the hits of the
first before those of the second, and are run over each on its own.  If no ordinal is carried on
both sides at any level, or if main documents are counted, the numbers of the whole are the sums of
the numbers of the two; this is so for three runs that are degraded as well. -/
theorem Beside.tally_eq_sum (h : p.Beside p₁ p₂ own₁ own₂)
    (hhits₁ : ∀ hit ∈ hits₁, own₁ hit.1.segment) (hhits₂ : ∀ hit ∈ hits₂, own₂ hit.1.segment)
    (hcolocated : s.isDirect = false → Colocated s p₁ p₂ hits₁ hits₂) {degraded : Bool}
    {tally tally₁ tally₂ : Tally Bucket} {pairs pairs₁ pairs₂ : List Handoff}
    (hwhole : Pass.Runs s p (hits₁ ++ hits₂) degraded tally pairs)
    (hfirst : Pass.Runs s p₁ hits₁ degraded tally₁ pairs₁)
    (hsecond : Pass.Runs s p₂ hits₂ degraded tally₂ pairs₂) : tally = .sum [tally₁, tally₂] := by
  cases degraded with
  | true =>
    -- nothing and nothing make nothing
    obtain rfl := hwhole.eq_empty
    obtain rfl := hfirst.eq_empty
    obtain rfl := hsecond.eq_empty
    exact (Tally.merge_empty .empty).symm
  | false =>
    have hcounts := hwhole.eq.1
    have hcounts₁ := hfirst.eq.1
    have hcounts₂ := hsecond.eq.1
    unfold Tally.CountsHits at hcounts hcounts₁ hcounts₂
    cases hdirect : s.isDirect with
    | true =>
      simp only [hdirect, if_true] at hcounts hcounts₁ hcounts₂
      exact h.sum_of_direct hhits₁ hhits₂ hcounts hcounts₁ hcounts₂
    | false =>
      simp only [hdirect, Bool.false_eq_true, if_false] at hcounts hcounts₁ hcounts₂
      -- the whole has answered, so its walks have come to their ends wherever that matters
      have hending (b : Bucket) (level : Level) (o : Ordinal) (hlevel : level < s.levels)
          (hreached : p.Reaches (p.Roots s (hits₁ ++ hits₂) b) level o) :
          (p.scan (level + 1)).ending = .ok () := hwhole.ending hdirect hlevel hreached
      exact h.sum_of_join hhits₁ hhits₂ (hcolocated hdirect) hending hcounts hcounts₁ hcounts₂

/-- Listed partitions are over the segments of their ancestors. -/
private theorem within_listing {l : Listing} {own : SegmentId → Prop}
    (h : ∀ docs ∈ l.ancestors, ∀ doc ∈ docs, own doc.segment) : l.toPartition.Within own where
  main_own hit doc hown hmain := by
    rw [Listing.segment_of_main hmain]
    exact hown
  scan_own level doc hdoc := by
    obtain ⟨docs, hdocs, hmem⟩ := Listing.mem_ancestors_of_mem_scan hdoc
    exact h docs hdocs doc hmem

/-- Listed partitions that share no ordinal at any level are colocated. -/
private theorem colocated_listing {l₁ l₂ : Listing}
    (h : ∀ entry₁ ∈ l₁.keys, ∀ entry₂ ∈ l₂.keys, entry₁.2.1 = entry₂.2.1 →
      entry₁.2.2.all fun o => o ∉ entry₂.2.2) :
    Colocated s l₁.toPartition l₂.toPartition hits₁ hits₂ := by
  intro level _ doc₁ doc₂ o _ _ hcarries₁ hcarries₂
  -- an ordinal carried is listed, and the lists share none
  obtain ⟨ordinals₁, hentry₁, ho₁⟩ := Listing.mem_keys_of_carries hcarries₁
  obtain ⟨ordinals₂, hentry₂, ho₂⟩ := Listing.mem_keys_of_carries hcarries₂
  have hnone := List.all_eq_true.1 (h _ hentry₁ _ hentry₂ rfl) o ho₁
  exact of_decide_eq_true hnone ho₂

/-- A segment whose two documents have one ancestor. -/
def north : Listing where
  keys := [(⟨0, 0⟩, 0, [1]), (⟨0, 1⟩, 0, [1, 2]), (⟨0, 9⟩, 0, [1]), (⟨0, 9⟩, 1, [3])]
  ancestors := [[⟨0, 9⟩]]
  mains := none
  refusals := []

/-- A segment whose document has two ancestors. -/
def south : Listing where
  keys := [(⟨1, 0⟩, 0, [3]), (⟨1, 8⟩, 0, [3]), (⟨1, 8⟩, 1, [1]), (⟨1, 9⟩, 0, [3]),
    (⟨1, 9⟩, 1, [2])]
  ancestors := [[⟨1, 8⟩, ⟨1, 9⟩]]
  mains := none
  refusals := []

/-- The segments of the two as one. -/
def compass : Partition := besides (· == 0) north.toPartition south.toPartition

private theorem compass_beside : compass.Beside north.toPartition south.toPartition
    (fun segment => (segment == 0) = true) (fun segment => (segment == 0) = false) :=
  beside_besides (within_listing (by decide)) (within_listing (by decide))

private theorem compass_runs : ∃ tally pairs, Pass.Runs Settings.default compass
    ([(⟨0, 0⟩, 7), (⟨0, 1⟩, 8)] ++ [(⟨1, 0⟩, 7)]) false tally pairs ∧ tally.get 7 = 3 :=
  Pass.runs_of_answers (by decide +kernel)

private theorem north_runs : ∃ tally pairs, Pass.Runs Settings.default north.toPartition
    [(⟨0, 0⟩, 7), (⟨0, 1⟩, 8)] false tally pairs ∧ tally.get 7 = 1 :=
  Pass.runs_of_answers (by decide +kernel)

private theorem south_runs : ∃ tally pairs, Pass.Runs Settings.default south.toPartition
    [(⟨1, 0⟩, 7)] false tally pairs ∧ tally.get 7 = 2 :=
  Pass.runs_of_answers (by decide +kernel)

/-- The numbers of the two segments and those of both. -/
theorem Beside.tally_eq_sum_compass : ∃ tally tally₁ tally₂ pairs pairs₁ pairs₂,
    Pass.Runs Settings.default compass ([(⟨0, 0⟩, 7), (⟨0, 1⟩, 8)] ++ [(⟨1, 0⟩, 7)]) false tally
      pairs ∧
    Pass.Runs Settings.default north.toPartition [(⟨0, 0⟩, 7), (⟨0, 1⟩, 8)] false tally₁ pairs₁ ∧
    Pass.Runs Settings.default south.toPartition [(⟨1, 0⟩, 7)] false tally₂ pairs₂ ∧
    tally = .sum [tally₁, tally₂] ∧ tally.get 7 = 3 ∧ tally₁.get 7 = 1 ∧ tally₂.get 7 = 2 := by
  obtain ⟨tally, pairs, hwhole, hthree⟩ := compass_runs
  obtain ⟨tally₁, pairs₁, hfirst, hone⟩ := north_runs
  obtain ⟨tally₂, pairs₂, hsecond, htwo⟩ := south_runs
  have hsum := Beside.tally_eq_sum compass_beside (by decide) (by decide)
    (fun _ => colocated_listing (by decide)) hwhole hfirst hsecond
  exact ⟨tally, tally₁, tally₂, pairs, pairs₁, pairs₂, hwhole, hfirst, hsecond, hsum, hthree, hone,
    htwo⟩

/-- A segment without a relation. -/
def waste : Listing where
  keys := []
  ancestors := []
  mains := none
  refusals := []

private theorem waste_beside :
    (besides (· == 0) waste.toPartition south.toPartition).Beside waste.toPartition
      south.toPartition (fun segment => (segment == 0) = true)
      (fun segment => (segment == 0) = false) :=
  beside_besides (within_listing (by decide)) (within_listing (by decide))

/-- A missing relation is masked. -/
def masking : Settings := { Settings.default with resilient := true }

private theorem waste_degraded : ∃ tally pairs,
    Pass.Runs masking waste.toPartition [] true tally pairs ∧ tally = .empty :=
  Pass.runs_of_answers (by decide +kernel)

private theorem south_masking : ∃ tally pairs,
    Pass.Runs masking south.toPartition [(⟨1, 0⟩, 7)] false tally pairs ∧ tally.get 7 = 2 :=
  Pass.runs_of_answers (by decide +kernel)

private theorem both_degraded : ∃ tally pairs,
    Pass.Runs masking (besides (· == 0) waste.toPartition south.toPartition)
      ([] ++ [(⟨1, 0⟩, 7)]) true tally pairs ∧ tally = .empty :=
  Pass.runs_of_answers (by decide +kernel)

/-- If a relation is missing on one side, the whole counts nothing, and the other side counts. -/
theorem degraded_whole_counts_nothing :
    ¬∀ (s : Settings) (p p₁ p₂ : Partition) (own₁ own₂ : SegmentId → Prop)
      (hits₁ hits₂ : List (Doc × Bucket)) (degraded degraded₁ degraded₂ : Bool)
      (tally tally₁ tally₂ : Tally Bucket) (pairs pairs₁ pairs₂ : List Handoff),
      p.Beside p₁ p₂ own₁ own₂ → (∀ hit ∈ hits₁, own₁ hit.1.segment) →
      (∀ hit ∈ hits₂, own₂ hit.1.segment) →
      (s.isDirect = false → Colocated s p₁ p₂ hits₁ hits₂) →
      Pass.Runs s p (hits₁ ++ hits₂) degraded tally pairs →
      Pass.Runs s p₁ hits₁ degraded₁ tally₁ pairs₁ →
      Pass.Runs s p₂ hits₂ degraded₂ tally₂ pairs₂ → tally = .sum [tally₁, tally₂] := by
  intro hadds
  obtain ⟨tally, pairs, hwhole, rfl⟩ := both_degraded
  obtain ⟨tally₁, pairs₁, hfirst, rfl⟩ := waste_degraded
  obtain ⟨tally₂, pairs₂, hsecond, htwo⟩ := south_masking
  have hsum := hadds masking _ _ _ _ _ [] [(⟨1, 0⟩, 7)] true true false _ _ tally₂ _ _ _
    waste_beside (by decide) (by decide) (fun _ => colocated_listing (by decide)) hwhole hfirst
    hsecond
  have hget := congrArg (Tally.get · 7) hsum
  simp [Tally.get_sum, Tally.get_empty, htwo] at hget

end Partition

end Lineage
