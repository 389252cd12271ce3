import Lineage.Proofs.Reach
import Lineage.Proofs.Taking

/-!
# What gatherers gather

Where levels are climbed, the facts of a gatherer are a table from buckets to level-0 ordinals.
After any run of hits it has exactly the links of the hits taken.  Where main documents are counted,
the facts are exactly the documents of the hits.  The memory of the document seen last loses nothing
in a run without faults: what a hit that it passes over counts for is in the facts already.

## Main statements

- `Gatherer.Holds`, `Gatherer.HoldsDocuments`: what a gatherer knows after some hits;
- `Gatherer.holds_take`, `Gatherer.holdsDocuments_take`: one hit keeps it;
- `Gatherer.holds_forM_take`, `Gatherer.holdsDocuments_forM_take`: any run of hits keeps it;
- `Facts.merge_links_eq_ok`, `Facts.merge_documents_eq_ok`: merging facts is union.
-/

namespace Lineage

/-- A hit of a bucket counts under a document that carries an ordinal at level 0. -/
def Partition.Roots (p : Partition) (s : Settings) (hits : List (Doc × Bucket)) (b : Bucket)
    (o : Ordinal) : Prop :=
  ∃ hit doc, (hit, b) ∈ hits ∧ p.target s hit = some doc ∧ p.Carries 0 doc o

theorem Partition.roots_append_singleton {p : Partition} {s : Settings}
    {hits : List (Doc × Bucket)} {hit : Doc} {b b' : Bucket} {o : Ordinal} :
    p.Roots s (hits ++ [(hit, b)]) b' o ↔ p.Roots s hits b' o ∨
      (b' = b ∧ ∃ doc, p.target s hit = some doc ∧ p.Carries 0 doc o) := by
  unfold Roots
  simp only [List.mem_append, List.mem_singleton, Prod.mk.injEq]
  constructor
  · intro hcases
    rcases hcases with ⟨hit', doc, hmem | ⟨rfl, rfl⟩, htarget, hcarries⟩
    · exact .inl ⟨hit', doc, hmem, htarget, hcarries⟩
    · exact .inr ⟨rfl, doc, htarget, hcarries⟩
  · intro hcases
    rcases hcases with ⟨hit', doc, hmem, htarget, hcarries⟩ | ⟨rfl, doc, htarget, hcarries⟩
    · exact ⟨hit', doc, .inl hmem, htarget, hcarries⟩
    · exact ⟨hit, doc, .inr ⟨rfl, rfl⟩, htarget, hcarries⟩

/-- A hit of a bucket counts under a document. -/
def Partition.Targets (p : Partition) (s : Settings) (hits : List (Doc × Bucket)) (b : Bucket)
    (doc : Doc) : Prop :=
  ∃ hit, (hit, b) ∈ hits ∧ p.target s hit = some doc

theorem Partition.targets_append_singleton {p : Partition} {s : Settings}
    {hits : List (Doc × Bucket)} {hit doc : Doc} {b b' : Bucket} :
    p.Targets s (hits ++ [(hit, b)]) b' doc ↔ p.Targets s hits b' doc ∨
      (b' = b ∧ p.target s hit = some doc) := by
  unfold Targets
  simp only [List.mem_append, List.mem_singleton, Prod.mk.injEq, or_and_right, exists_or]
  apply or_congr_right
  constructor
  · rintro ⟨hit', ⟨rfl, rfl⟩, htarget⟩
    exact ⟨rfl, htarget⟩
  · rintro ⟨rfl, htarget⟩
    exact ⟨hit, ⟨rfl, rfl⟩, htarget⟩

namespace Gatherer

variable {s : Settings} {p : Partition}

/-! ## §1 Entering a document -/

theorem ownKeys_eq_ok {doc : Doc} {g g' : Gatherer} {j j' : Journal} {keys : List Ordinal}
    (h : ownKeys p doc (g, j) = .ok keys (g', j')) : p.keys 0 doc = .ok keys ∧ g' = g := by
  obtain ⟨r, r', hget, hrest⟩ := Step.bind_eq_ok.1 h
  obtain ⟨rfl, rfl⟩ := Step.get_eq_ok.1 hget
  obtain ⟨⟨⟩, r, hask, hanswer⟩ := Step.bind_eq_ok.1 hrest
  obtain ⟨hkeys, rfl⟩ := Step.ofExcept_eq_ok.1 hanswer
  obtain ⟨k, -, hput⟩ := Step.inside_eq_ok.1 hask
  exact ⟨hkeys, (congrArg Prod.fst hput).symm⟩

/-- Linking a bucket to ordinals adds those links to the table. -/
theorem link_eq_ok {b : Bucket} {keys : List Ordinal} {g g' : Gatherer} {j j' : Journal}
    {table : LinkTable} {a : Unit} (hfacts : g.facts = .links table)
    (h : keys.forM (link b) (g, j) = .ok a (g', j')) :
    ∃ table', g' = { g with facts := .links table' } ∧
      table.Gains table' fun b' o => b' = b ∧ o ∈ keys := by
  -- after each ordinal, the links to the ordinals so far are there
  have hrun := Step.forM_induction
    (fun done (state : Gatherer × Journal) => ∃ table',
      state.1 = { g with facts := .links table' } ∧
      table.Gains table' fun b' o => b' = b ∧ o ∈ done)
    ⟨table, by rw [← hfacts], (LinkTable.Gains.refl table).congr (by simp)⟩ ?carry h
  case carry =>
    rintro done o rest ⟨g₁, j₁⟩ ⟨g₂, j₂⟩ - ⟨table₁, hg₁, hgains⟩ hlink
    obtain rfl : g₁ = _ := hg₁
    obtain ⟨r, r', hget, hrest⟩ := Step.bind_eq_ok.1 hlink
    obtain ⟨rfl, rfl⟩ := Step.get_eq_ok.1 hget
    obtain ⟨fresh, hinside⟩ := Step.discard_eq_ok.1 hrest
    obtain ⟨table₂, hinsert, hput⟩ := Step.inside_eq_ok.1 hinside
    obtain ⟨rfl, rfl⟩ := Prod.mk.inj hput
    refine ⟨table₂, rfl, (hgains.trans (LinkTable.gains_insert hinsert)).congr fun b' o' => ?_⟩
    simp only [List.mem_append, List.mem_singleton]
    tauto
  exact hrun

/-- Entering a document into a table of links adds all its links. -/
theorem enter_eq_ok {b : Bucket} {doc : Doc} {g g' : Gatherer} {j j' : Journal}
    {table : LinkTable} {a : Unit} (hfacts : g.facts = .links table)
    (h : enter p b doc (g, j) = .ok a (g', j')) :
    ∃ table', g' = { g with facts := .links table' } ∧
      table.Gains table' (fun b' o => b' = b ∧ p.Carries 0 doc o) := by
  rw [enter_of_links hfacts] at h
  obtain ⟨keys, ⟨g₁, j₁⟩, hask, hlinks⟩ := Step.bind_eq_ok.1 h
  obtain ⟨hkeys, rfl⟩ := ownKeys_eq_ok hask
  obtain ⟨table', hg', hgains⟩ := link_eq_ok hfacts hlinks
  exact ⟨table', hg', hgains.congr fun b' o => by rw [Partition.carries_iff hkeys]⟩

/-- Entering a document where documents are counted adds it for the bucket. -/
theorem enter_documents_eq_ok {b : Bucket} {doc : Doc} {g g' : Gatherer} {j j' : Journal}
    {seen : Sightings} {a : Unit} (hfacts : g.facts = .documents seen)
    (h : enter p b doc (g, j) = .ok a (g', j')) :
    ∃ seen', g' = { g with facts := .documents seen' } ∧
      seen.Gains seen' (fun b' doc' => b' = b ∧ doc' = doc) := by
  rw [enter_of_documents hfacts] at h
  obtain ⟨seen', hg', hgains, -⟩ := note_eq_ok h
  exact ⟨seen', hg', hgains⟩

/-! ## §2 Runs of hits where levels are climbed -/

/-- What a gatherer knows after some hits: the table has exactly their links, and of the document
seen last it has all keys for the buckets it was seen for. -/
structure Holds (s : Settings) (p : Partition) (hits : List (Doc × Bucket))
    (g : Gatherer) (table : LinkTable) : Prop where
  facts : g.facts = .links table
  wellFormed : table.WellFormed
  links : ∀ b o, table.Links b o ↔ p.Roots s hits b o
  recent : ∀ doc b, g.recent.doc = some doc → b ∈ g.recent.buckets →
    ∀ o, p.Carries 0 doc o → table.Links b o

/-- Without a hit nothing is known. -/
theorem holds_start {g : Gatherer} (hlevels : 1 ≤ s.levels) (h : start s p = .ok g) :
    Holds s p [] g (.empty s.limit) := by
  have hdirect : s.isDirect = false := by
    simp [Settings.isDirect, Nat.ne_of_gt hlevels]
  obtain rfl := eq_of_start h
  refine ⟨by simp [factsFor, hdirect], LinkTable.wellFormed_empty _, fun b o => ?_, ?_⟩
  · simp [LinkTable.not_links_empty, Partition.Roots]
  · simp [Recent.empty]

variable {hits : List (Doc × Bucket)} {hit : Doc} {b : Bucket} {g g' : Gatherer}
  {table : LinkTable}

/-- A hit whose links are there already changes nothing about what is known. -/
private theorem Holds.of_known (hg : Holds s p hits g table) (hfacts : g'.facts = g.facts)
    (hrecent : g'.recent = g.recent)
    (hknown : ∀ doc o, p.target s hit = some doc → p.Carries 0 doc o → table.Links b o) :
    Holds s p (hits ++ [(hit, b)]) g' table := by
  refine ⟨hfacts.trans hg.facts, hg.wellFormed, fun b' o => ?_, hrecent ▸ hg.recent⟩
  rw [Partition.roots_append_singleton, ← hg.links]
  -- what the hit adds to the roots is among the links already
  constructor
  · exact .inl
  · intro hcases
    rcases hcases with hlink | ⟨rfl, doc, htarget, hcarries⟩
    · exact hlink
    · exact hknown doc o htarget hcarries

/-- A hit whose document is entered adds its links, and the document is now the one seen last. -/
private theorem Holds.of_entered {table' : LinkTable} {doc : Doc} (hg : Holds s p hits g table)
    (htarget : p.target s hit = some doc) (hfacts : g'.facts = .links table')
    (hgains : table.Gains table' fun b' o => b' = b ∧ p.Carries 0 doc o)
    (hrecent : ∀ d b', g'.recent.Has d b' ↔ d = doc ∧ (b' = b ∨ g.recent.Has doc b')) :
    Holds s p (hits ++ [(hit, b)]) g' table' := by
  refine ⟨hfacts, hgains.wellFormed hg.wellFormed, fun b' o => ?_, ?_⟩
  · rw [hgains.links, hg.links, Partition.roots_append_singleton]
    simp [htarget]
  · intro doc' b' hdoc' hb' o hcarries
    obtain ⟨rfl, hb⟩ := (hrecent doc' b').1 ⟨hdoc', hb'⟩
    rw [hgains.links]
    -- this bucket got the links just now, an earlier one when it was seen
    rcases hb with rfl | hbefore
    · exact .inr ⟨rfl, hcarries⟩
    · exact .inl (hg.recent doc' b' hbefore.1 hbefore.2 o hcarries)

/-- Taking a hit adds the links of its document and no others. -/
theorem holds_take {j j' : Journal} {a : Unit} (hg : Holds s p hits g table)
    (h : take s p hit b (g, j) = .ok a (g', j')) :
    ∃ table', Holds s p (hits ++ [(hit, b)]) g' table' := by
  obtain ⟨g₁, j₁, -, hfacts, hrecent, hcases⟩ := take_eq_ok h
  rcases hcases with ⟨rfl, rfl, hseen⟩ | ⟨doc, recent, htarget, hnew, hremembered, henter⟩
  · -- the hit is passed over, and its links are there already
    refine ⟨table, hg.of_known hfacts hrecent fun doc o htarget hcarries => ?_⟩
    obtain ⟨hdoc, hb⟩ := hseen doc htarget
    exact hg.recent doc b hdoc hb o hcarries
  · -- its document is entered: it brings its links, and is the one seen last from now on
    have hlinks : ({ g₁ with recent } : Gatherer).facts = .links table := hfacts.trans hg.facts
    obtain ⟨table', rfl, hgains⟩ := enter_eq_ok hlinks henter
    exact ⟨table', hg.of_entered htarget rfl hgains hremembered⟩

/-- After any run of hits that succeeds, the table has exactly the links of those hits. -/
theorem holds_forM_take {j j' : Journal} {a : Unit} (hg : Holds s p [] g table)
    (h : (hits.forM fun (hit, b) => take s p hit b : Step (Gatherer × Journal) Unit) (g, j) =
      .ok a (g', j')) :
    ∃ table', Holds s p hits g' table' := by
  refine Step.forM_induction (s := (g, j)) (fun done (state : Gatherer × Journal) =>
    ∃ table', Holds s p done state.1 table') ⟨table, hg⟩ ?_ h
  rintro done ⟨hit, b⟩ rest ⟨g₁, j₁⟩ ⟨g₂, j₂⟩ - ⟨table₁, hg₁⟩ htake
  exact holds_take hg₁ htake

/-! ## §3 Runs of hits where main documents are counted -/

/-- What a gatherer of documents knows after some hits: exactly the documents of the hits, and the
one seen last among them. -/
structure HoldsDocuments (s : Settings) (p : Partition) (hits : List (Doc × Bucket))
    (g : Gatherer) (seen : Sightings) : Prop where
  facts : g.facts = .documents seen
  wellFormed : seen.WellFormed
  has : ∀ b doc, seen.Has b doc ↔ p.Targets s hits b doc
  recent : ∀ doc b, g.recent.Has doc b → seen.Has b doc

theorem holdsDocuments_start {g : Gatherer} (hdirect : s.isDirect = true)
    (h : start s p = .ok g) : HoldsDocuments s p [] g (.empty s.limit) := by
  obtain rfl := eq_of_start h
  refine ⟨by simp [factsFor, hdirect], Sightings.wellFormed_empty _, fun b doc => ?_, ?_⟩
  · simp [Sightings.not_has_empty, Partition.Targets]
  · intro doc b hhas
    exact absurd hhas (Recent.not_has_empty doc b)

variable {seen : Sightings}

/-- Taking a hit adds its document and no other. -/
theorem holdsDocuments_take {j j' : Journal} {a : Unit} (hg : HoldsDocuments s p hits g seen)
    (h : take s p hit b (g, j) = .ok a (g', j')) :
    ∃ seen', HoldsDocuments s p (hits ++ [(hit, b)]) g' seen' := by
  obtain ⟨g₁, j₁, -, hfacts, hrecent, hcases⟩ := take_eq_ok h
  rcases hcases with ⟨rfl, rfl, hseen⟩ | ⟨doc, recent, htarget, hnew, hremembered, henter⟩
  · -- the hit is passed over, and its document is there already
    refine ⟨seen, hfacts.trans hg.facts, hg.wellFormed, fun b' doc => ?_, hrecent ▸ hg.recent⟩
    rw [Partition.targets_append_singleton, hg.has, or_iff_left_of_imp]
    rintro ⟨rfl, htarget⟩
    exact (hg.has b' doc).1 (hg.recent doc b' (hseen doc htarget))
  · -- its document is added, and is the one seen last from now on
    have hdocs : ({ g₁ with recent } : Gatherer).facts = .documents seen := hfacts.trans hg.facts
    obtain ⟨seen', rfl, hgains⟩ := enter_documents_eq_ok hdocs henter
    refine ⟨seen', rfl, hgains.wellFormed hg.wellFormed, fun b' doc' => ?_, fun doc' b' hhas => ?_⟩
    · rw [hgains.has, hg.has, Partition.targets_append_singleton, htarget, Option.some.injEq,
        eq_comm (a := doc)]
    · obtain ⟨rfl, hb⟩ := (hremembered doc' b').1 hhas
      rw [hgains.has]
      -- this bucket got the document just now, an earlier one when it was seen
      rcases hb with rfl | hbefore
      · exact .inr ⟨rfl, rfl⟩
      · exact .inl (hg.recent doc' b' hbefore)

/-- After any run of hits that succeeds, the facts are exactly the documents of those hits. -/
theorem holdsDocuments_forM_take {j j' : Journal} {a : Unit} (hg : HoldsDocuments s p [] g seen)
    (h : (hits.forM fun (hit, b) => take s p hit b : Step (Gatherer × Journal) Unit) (g, j) =
      .ok a (g', j')) :
    ∃ seen', HoldsDocuments s p hits g' seen' := by
  refine Step.forM_induction (s := (g, j)) (fun done (state : Gatherer × Journal) =>
    ∃ seen', HoldsDocuments s p done state.1 seen') ⟨seen, hg⟩ ?_ h
  intro done hit rest x y _ hx htake
  obtain ⟨seen₁, hheld⟩ := hx
  exact holdsDocuments_take hheld htake

end Gatherer

/-! ## §4 Facts brought together -/

namespace Facts

variable {facts : Facts} {a : Unit}

/-- A table gains the links of the one that is merged into it. -/
theorem merge_links_eq_ok {mine theirs : LinkTable} (htheirs : theirs.WellFormed)
    (h : merge (.links theirs) (.links mine) = .ok a facts) :
    ∃ table, facts = .links table ∧ mine.Gains table theirs.Links := by
  obtain ⟨r, r', hget, hrest⟩ := Step.bind_eq_ok.1 h
  obtain ⟨rfl, rfl⟩ := Step.get_eq_ok.1 hget
  obtain ⟨table, hmerge, rfl⟩ := Step.inside_eq_ok.1 hrest
  exact ⟨table, rfl, LinkTable.gains_merge htheirs hmerge⟩

/-- So does a memory of documents. -/
theorem merge_documents_eq_ok {mine theirs : Sightings} (htheirs : theirs.WellFormed)
    (h : merge (.documents theirs) (.documents mine) = .ok a facts) :
    ∃ seen, facts = .documents seen ∧ mine.Gains seen theirs.Has := by
  obtain ⟨r, r', hget, hrest⟩ := Step.bind_eq_ok.1 h
  obtain ⟨rfl, rfl⟩ := Step.get_eq_ok.1 hget
  obtain ⟨seen, hmerge, rfl⟩ := Step.inside_eq_ok.1 hrest
  exact ⟨seen, rfl, Sightings.gains_merge htheirs hmerge⟩

end Facts

end Lineage
