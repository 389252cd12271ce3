import Lineage.Proofs.Index.Searching
import Lineage.Proofs.Index.TermReach

/-!
# A search counts the join over texts

A search over an index that ends with a report has counted, for every bucket, the distinct texts
that the matched documents assigned to it reach at the last level.  Segments, ordinals and deleted
documents leave no trace in the numbers: two layouts of the same live documents, searched for the
same documents under the same buckets, give the same report.

## Main statements

- `SearchPass.Completed.tally_counts_texts`: the numbers of a report, and their independence of the
  layout.
-/

namespace Lineage.Index

variable {snapshot : Snapshot} {chain : JoinChain} {s : Settings} {p : Partition}

/-! ## §1 As many texts as ordinals -/

variable {hits : List (Doc × Bucket)} {assigned : Doc → Bucket → Prop}

/-- The level-0 ordinals of a bucket stand for its level-0 texts. -/
theorem roots_iff {n : TermNumbering} (hn : NumberedKeys p snapshot chain 0 n)
    (hhits : ∀ hit b, (hit, b) ∈ hits ↔ assigned hit b) {b : Bucket} {o : Ordinal} :
    p.Roots s hits b o ↔
      ∃ t, chain.Roots snapshot (p.target s) assigned b t ∧ n.ordinal? t = some o := by
  constructor
  · rintro ⟨hit, doc, hhit, htarget, hcarries⟩
    obtain ⟨d, t, hd, ht, ho⟩ := hn.carries.1 hcarries
    exact ⟨t, ⟨hit, doc, d, (hhits hit b).1 hhit, htarget, hd, ht⟩, ho⟩
  · rintro ⟨t, ⟨hit, doc, d, hassigned, htarget, hd, ht⟩, ho⟩
    exact ⟨hit, doc, (hhits hit b).2 hassigned, htarget, hn.carries.2 ⟨d, t, hd, ht, ho⟩⟩

/-- The ordinals reached are the texts reached under other names, one for each. -/
private theorem reachedSet_eq_image
    (hkeys : ∀ level : Nat, level ≤ s.levels → ∃ n, NumberedKeys p snapshot chain level n)
    (hscan : ∀ level : Nat, level < s.levels → FilteredScan p snapshot chain level)
    (hhits : ∀ hit b, (hit, b) ∈ hits ↔ assigned hit b) (b : Bucket) :
    ∃ name : String → Ordinal,
      Set.InjOn name (chain.reachedTexts snapshot (p.target s) assigned s.levels b) ∧
      p.reachedSet s (p.Roots s hits b) =
        name '' chain.reachedTexts snapshot (p.target s) assigned s.levels b := by
  -- the numbering of the last level names the texts that are reached there
  obtain ⟨n, hn⟩ := hkeys s.levels (Nat.le_refl _)
  have hreaches (o : Ordinal) : o ∈ p.reachedSet s (p.Roots s hits b) ↔
      ∃ t ∈ chain.reachedTexts snapshot (p.target s) assigned s.levels b,
        n.ordinal? t = some o :=
    reaches_iff hkeys hscan (fun m hm o => roots_iff hm hhits) (Nat.le_refl _) hn o
  -- texts come from documents, so all of them have ordinals
  have hordinal (t : String)
      (ht : t ∈ chain.reachedTexts snapshot (p.target s) assigned s.levels b) :
      n.ordinal? t = some ((n.ordinal? t).getD 0) := by
    have hheld (t : String) (hroot : chain.Roots snapshot (p.target s) assigned b t) :
        ∃ d, snapshot.Stores d ∧ chain.HoldsKey 0 d t := by
      obtain ⟨hit, doc, d, -, -, hd, hholds⟩ := hroot
      exact ⟨d, ⟨doc, hd⟩, hholds⟩
    obtain ⟨o, ho⟩ := exists_ordinal_of_reaches hn hheld ht
    rw [ho, Option.getD_some]
  -- so the default is never taken, and the name of a text is its ordinal
  refine ⟨fun t => (n.ordinal? t).getD 0, ?_, ?_⟩
  · intro t ht t' ht' hsame
    have hshared : n.ordinal? t' = some ((n.ordinal? t).getD 0) := by
      rw [hordinal t' ht']
      exact congrArg some hsame.symm
    exact hn.inj (hordinal t ht) hshared
  · ext o
    constructor
    · intro ho
      obtain ⟨t, ht, hto⟩ := (hreaches o).1 ho
      refine ⟨t, ht, ?_⟩
      simp only [hto, Option.getD_some]
    · rintro ⟨t, ht, rfl⟩
      exact (hreaches _).2 ⟨t, ht, hordinal t ht⟩

/-- Where ordinals stand for texts, as many texts are reached as ordinals. -/
theorem ncard_reached
    (hkeys : ∀ level : Nat, level ≤ s.levels → ∃ n, NumberedKeys p snapshot chain level n)
    (hscan : ∀ level : Nat, level < s.levels → FilteredScan p snapshot chain level)
    (hhits : ∀ hit b, (hit, b) ∈ hits ↔ assigned hit b) (b : Bucket) :
    (chain.reachedTexts snapshot (p.target s) assigned s.levels b).Finite ∧
      (p.reachedSet s (p.Roots s hits b)).ncard =
        (chain.reachedTexts snapshot (p.target s) assigned s.levels b).ncard := by
  obtain ⟨name, hinj, himage⟩ := reachedSet_eq_image hkeys hscan hhits b
  -- there are finitely many ordinals, and the names tell the texts apart
  constructor
  · refine Set.Finite.of_finite_image ?_ hinj
    rw [← himage]
    exact p.finite_reachedSet s _
  · rw [himage, hinj.ncard_image]

namespace SearchPass

/-! ## §2 Completed searches -/

/-- A search that started over an opened snapshot, with every relation there, and ended with a
report. -/
structure Completed (snapshot : Snapshot) (chain : JoinChain) (s : Settings) where
  bucketing : Bucketing
  /-- The matched documents, segment by segment. -/
  matched : List (SegmentId × List UInt32)
  pass : SearchPass
  partition : Partition
  report : Report
  /-- What was recorded before the search, when it had started, and at its end. -/
  (before between after : Journal)
  started : SearchPass.start s (partitionOver snapshot chain s) bucketing before =
    .ok pass between
  running : pass.partition = some partition
  ran : pass.runOver matched between = .ok report after

namespace Completed

/-- A matched document is a hit of a bucket that it is assigned to. -/
def Hits (c : Completed snapshot chain s) (hit : Doc) (b : Bucket) : Prop :=
  c.bucketing.Assigns c.matched hit b

/-- The texts that the hits of a bucket reach at the last level. -/
def texts (c : Completed snapshot chain s) (b : Bucket) : Set String :=
  chain.reachedTexts snapshot (chain.target snapshot s) c.Hits s.levels b

/-- Two searches over the same live documents for the same hits, wherever they are stored. -/
structure SameContents {snapshot' : Snapshot} (c : Completed snapshot chain s)
    (c' : Completed snapshot' chain s) : Prop where
  docs : ∀ d, d.isLive = true → (snapshot.Stores d ↔ snapshot'.Stores d)
  hits : ∀ d b, (∃ hit, c.Hits hit b ∧ snapshot.stored? hit = some d) ↔
    ∃ hit, c'.Hits hit b ∧ snapshot'.stored? hit = some d

/-- A report has counted the texts that its hits reach. -/
private theorem counts_texts (c : Completed snapshot chain s) (haddr : snapshot.Addressable)
    (hlevels : 1 ≤ s.levels) (b : Bucket) : (c.texts b).Finite ∧
      c.report.tally.get b = (c.texts b).ncard ∧
      (b ∈ c.report.tally.entries ↔ 0 < (c.texts b).ncard) := by
  obtain ⟨hsettings, hbucketing, -, hopened⟩ := start_eq_ok c.started c.running
  -- what the pass gathers is what its matched documents are assigned to
  have hhits (hit : Doc) (b : Bucket) : (hit, b) ∈ c.pass.allHits c.matched ↔ c.Hits hit b := by
    rw [mem_allHits, hbucketing]
    rfl
  have hcounts := runOver_countsReached (hsettings.symm ▸ hlevels) c.running c.ran b
  rw [hsettings] at hcounts
  obtain ⟨hfinite, hncard⟩ := ncard_reached
    (fun level hlevel => numberedKeys_of_partitionOver hlevels hopened hlevel)
    (fun level hlevel => filteredScan_of_partitionOver haddr hopened hlevel) hhits b
  rw [target_of_partitionOver hopened] at hfinite hncard
  refine ⟨hfinite, ?_⟩
  unfold texts
  rw [← hncard]
  exact hcounts

/-- Without nesting, the same contents reach the same texts. -/
private theorem texts_subset {snapshot' : Snapshot} (c : Completed snapshot chain s)
    (c' : Completed snapshot' chain s) (hnested : s.nested = false)
    (hdocs : ∀ d, d.isLive = true → snapshot.Stores d → snapshot'.Stores d)
    (hhits : ∀ d b, (∃ hit, c.Hits hit b ∧ snapshot.stored? hit = some d) →
      ∃ hit, c'.Hits hit b ∧ snapshot'.stored? hit = some d) (b : Bucket) :
    c.texts b ⊆ c'.texts b := by
  -- a nested hit would count under its main document, and that depends on its segment
  have htarget (snapshot : Snapshot) (hit : Doc) : chain.target snapshot s hit = some hit := by
    simp [JoinChain.target, hnested]
  intro t ht
  refine JoinChain.Reaches.mono hdocs ?_ ht
  rintro t ⟨hit, doc, d, hhit, hdoc, hd, hholds⟩
  rw [htarget] at hdoc
  obtain rfl : hit = doc := Option.some.inj hdoc
  obtain ⟨hit', hhit', hd'⟩ := hhits d b ⟨hit, hhit, hd⟩
  exact ⟨hit', hit', d, hhit', htarget _ hit', hd', hholds⟩

/-- A report counts, for every bucket, the texts that its hits reach at the last level, and has an
entry for the buckets that reach any.  Without nesting the same live documents give the same
numbers for the same hits, however they are distributed over segments. -/
theorem tally_counts_texts (c : Completed snapshot chain s) (haddr : snapshot.Addressable)
    (hlevels : 1 ≤ s.levels) :
    (∀ b, (c.texts b).Finite ∧ c.report.tally.get b = (c.texts b).ncard ∧
      (b ∈ c.report.tally.entries ↔ 0 < (c.texts b).ncard)) ∧
    ∀ {snapshot' : Snapshot} (c' : Completed snapshot' chain s), snapshot'.Addressable →
      s.nested = false → SameContents c c' → c'.report.tally = c.report.tally := by
  refine ⟨c.counts_texts haddr hlevels, fun c' haddr' hnested hsame => ?_⟩
  -- the numbers are those of the texts, so the texts decide about both reports
  have htexts (b : Bucket) : c'.texts b = c.texts b := by
    apply Set.Subset.antisymm
    · exact texts_subset c' c hnested (fun d hlive => (hsame.docs d hlive).2)
        (fun d b => (hsame.hits d b).2) b
    · exact texts_subset c c' hnested (fun d hlive => (hsame.docs d hlive).1)
        (fun d b => (hsame.hits d b).1) b
  apply Tally.ext_of_get
  · intro b
    rw [(c.counts_texts haddr hlevels b).2.2, (c'.counts_texts haddr' hlevels b).2.2, htexts]
  · intro b
    rw [(c.counts_texts haddr hlevels b).2.1, (c'.counts_texts haddr' hlevels b).2.1, htexts]

/-- Persons with the families they were born in and those they founded. -/
def registry (segments : List Segment) : Snapshot where
  schema := [⟨"in", true, true, true⟩, ⟨"of", true, true, true⟩, ⟨"role", true, true, true⟩]
  segments := segments

def child : Stored := ⟨[("in", .text "x"), ("in", .text "z")], true⟩

def cousin : Stored := ⟨[("in", .text "y")], true⟩

def founder : Stored :=
  ⟨[("in", .text "x"), ("of", .text "v"), ("of", .text "u"), ("role", .text "founder")], true⟩

def aunt : Stored :=
  ⟨[("of", .text "u"), ("of", .text "t"), ("in", .text "y"), ("role", .text "founder")], true⟩

/-- One who was taken in by a family and has founded none. -/
def guest : Stored := ⟨[("in", .text "x"), ("of", .text "s"), ("role", .text "guest")], true⟩

/-- A founder who has been deleted. -/
def forgotten : Stored := ⟨[("in", .text "z"), ("of", .text "w"), ("role", .text "founder")], false⟩

def founders : JoinChain := ⟨["in", "of"], [⟨"role", "founder"⟩], none⟩

/-- The child on its own, the cousin with the founders. -/
def scattered : Snapshot := registry [#[child], #[forgotten, founder, cousin, guest, aunt]]

/-- The same persons, with the cousin on its own. -/
def gathered : Snapshot := registry [#[aunt, guest, founder, forgotten, child], #[cousin]]

/-- One document is assigned to two buckets, and another one to the second of them as well. -/
def kin (first second : Doc) : Bucketing := .listed [(first, [1, 2]), (second, [2])] []

/-- A search for two documents that can be followed to its report. -/
private theorem exists_completed (snapshot : Snapshot) (first second : Doc)
    (h : (start .default (partitionOver snapshot founders .default) (kin first second)).Answers
      (.start .unlimited) fun pass between => pass.partition.isSome = true ∧
        (pass.runOver [(first.segment, [first.id]), (second.segment, [second.id])]).Answers between
          fun report _ => report.tally.get 1 = 2 ∧ report.tally.get 2 = 3) :
    ∃ c : Completed snapshot founders .default, c.bucketing = kin first second ∧
      c.matched = [(first.segment, [first.id]), (second.segment, [second.id])] ∧
      c.report.tally.get 1 = 2 ∧ c.report.tally.get 2 = 3 := by
  obtain ⟨pass, between, hstart, hrunning, hrest⟩ := Step.answers_iff.1 h
  obtain ⟨report, after, hrun, hcounts⟩ := Step.answers_iff.1 hrest
  obtain ⟨p, hp⟩ := Option.isSome_iff_exists.1 hrunning
  exact ⟨⟨kin first second, _, pass, p, report, _, between, after, hstart, hp, hrun⟩, rfl, rfl,
    hcounts⟩

/-- What the two persons are assigned to, wherever they are stored. -/
private theorem hits_kin {snapshot : Snapshot} {c : Completed snapshot founders .default}
    {first second : Doc} (hbucketing : c.bucketing = kin first second)
    (hmatched : c.matched = [(first.segment, [first.id]), (second.segment, [second.id])])
    (hpairs : allHits ⟨.default, none, kin first second⟩
      [(first.segment, [first.id]), (second.segment, [second.id])] =
        [(first, 1), (first, 2), (second, 2)])
    (hfirst : snapshot.stored? first = some child)
    (hsecond : snapshot.stored? second = some cousin) (d : Stored) (b : Bucket) :
    (∃ hit, c.Hits hit b ∧ snapshot.stored? hit = some d) ↔
      (child = d ∧ (b = 1 ∨ b = 2)) ∨ (cousin = d ∧ b = 2) := by
  -- what is assigned is listed once, and each of the pairs is looked up where it is stored
  have hhits (hit : Doc) : c.Hits hit b ↔
      (hit, b) ∈ [(first, (1 : Bucket)), (first, 2), (second, 2)] := by
    rw [← hpairs, mem_allHits, Hits, hbucketing, hmatched]
  simp only [hhits, List.mem_cons, List.not_mem_nil, or_false, Prod.mk.injEq]
  constructor
  · rintro ⟨hit, ⟨rfl, rfl⟩ | ⟨rfl, rfl⟩ | ⟨rfl, rfl⟩, hd⟩
    · exact .inl ⟨Option.some.inj (hfirst.symm.trans hd), .inl rfl⟩
    · exact .inl ⟨Option.some.inj (hfirst.symm.trans hd), .inr rfl⟩
    · exact .inr ⟨Option.some.inj (hsecond.symm.trans hd), rfl⟩
  · rintro (⟨rfl, rfl | rfl⟩ | ⟨rfl, rfl⟩)
    · exact ⟨first, .inl ⟨rfl, rfl⟩, hfirst⟩
    · exact ⟨first, .inr (.inl ⟨rfl, rfl⟩), hfirst⟩
    · exact ⟨second, .inr (.inr ⟨rfl, rfl⟩), hsecond⟩

/-- The child reaches the two families of one founder, and together with the cousin it reaches those
of both, in either layout. -/
theorem tally_counts_texts_founders :
    ∃ (c : Completed scattered founders .default) (c' : Completed gathered founders .default),
      c.bucketing.buckets ⟨0, 0⟩ = [1, 2] ∧ c.bucketing.buckets ⟨1, 2⟩ = [2] ∧
      c.report.tally.get 1 = 2 ∧ (c.texts 1).ncard = 2 ∧
      c.report.tally.get 2 = 3 ∧ (c.texts 2).ncard = 3 ∧ c'.report.tally = c.report.tally := by
  obtain ⟨c, hbucketing, hmatched, hone, htwo⟩ :=
    exists_completed scattered ⟨0, 0⟩ ⟨1, 2⟩ (by decide +kernel)
  obtain ⟨c', hbucketing', hmatched', -⟩ :=
    exists_completed gathered ⟨0, 4⟩ ⟨1, 0⟩ (by decide +kernel)
  have haddr : scattered.Addressable := ⟨by decide, by decide⟩
  have haddr' : gathered.Addressable := ⟨by decide, by decide⟩
  -- the live persons are the same ones, and so are the two that are searched for
  have hsame : SameContents c c' := by
    constructor
    · intro d hlive
      rw [Snapshot.stores_iff haddr, Snapshot.stores_iff haddr']
      simp only [scattered, gathered, registry, List.mem_cons, List.not_mem_nil, or_false,
        exists_eq_or_imp, exists_eq_left, Array.mem_def]
      tauto
    · intro d b
      rw [hits_kin hbucketing hmatched rfl rfl rfl, hits_kin hbucketing' hmatched' rfl rfl rfl]
  obtain ⟨hcounts, hlayout⟩ := c.tally_counts_texts haddr (by decide)
  refine ⟨c, c', by rw [hbucketing]; rfl, by rw [hbucketing]; rfl, hone, ?_, htwo, ?_,
    hlayout c' haddr' rfl hsame⟩
  · rw [← (hcounts 1).2.1, hone]
  · rw [← (hcounts 2).2.1, htwo]

end Completed

end SearchPass

end Lineage.Index
