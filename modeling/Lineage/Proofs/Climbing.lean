import Lineage.Ascent
import Lineage.Proofs.Journal
import Lineage.Proofs.Ordered
import Lineage.Proofs.Reach

/-!
# What climbing computes

A level transition is followed step by step: what a visit adds to the table of reached ordinals,
and what it hands on.  The induction over the visits then gives a whole transition, and the
induction over the levels a whole climb.

## Main statements

- `Transition.visit_eq_ok`: one visit adds what its document brings, and hands the document on for
  the buckets that gain by it;
- `Transition.climb_eq_ok`: a transition adds what all ancestors bring, and hands each of them on
  for the buckets it is the first to bring something;
- `Ascent.links_run`: the table at the top links every bucket to the ordinals it reaches.
-/

namespace Lineage

namespace Transition

/-! ## §1 Progress of a transition -/

/-- A transition has moved on: it has added links to the table and handed some pairs on. -/
structure Advances (t u : Transition) (added : Ordinal → Bucket → Prop)
    (pairs : List Handoff) : Prop where
  reached : t.reached.Gains u.reached added
  offered : u.journal.sink.offered.toList = t.journal.sink.offered.toList ++ pairs
  taken : u.journal.sink.taken.toList = t.journal.sink.taken.toList ++ pairs

/-- A step that leaves table and sink alone. -/
theorem Advances.of_eq {t u : Transition} (hreached : u.reached = t.reached)
    (hsink : u.journal.sink = t.journal.sink) : t.Advances u (fun _ _ => False) [] where
  reached := hreached ▸ .refl _
  offered := by simp [hsink]
  taken := by simp [hsink]

theorem Advances.trans {t u v : Transition} {p q : Ordinal → Bucket → Prop}
    {pairs pairs' : List Handoff} (h : t.Advances u p pairs) (h' : u.Advances v q pairs') :
    t.Advances v (fun o b => p o b ∨ q o b) (pairs ++ pairs') where
  reached := h.reached.trans h'.reached
  offered := by rw [h'.offered, h.offered, List.append_assoc]
  taken := by rw [h'.taken, h.taken, List.append_assoc]

theorem Advances.congr {t u : Transition} {p q : Ordinal → Bucket → Prop} {pairs : List Handoff}
    (h : t.Advances u p pairs) (hpq : ∀ o b, p o b ↔ q o b) : t.Advances u q pairs where
  reached := h.reached.congr hpq
  offered := h.offered
  taken := h.taken

theorem onReached_eq_ok {α : Type} {step : Step LinkTable α} {t u : Transition} {a : α}
    (h : onReached step t = .ok a u) :
    ∃ reached, step t.reached = .ok a reached ∧ u = { t with reached } := by
  obtain ⟨s, r, hget, hstep⟩ := Step.bind_eq_ok.1 h
  obtain ⟨rfl, rfl⟩ := Step.get_eq_ok.1 hget
  obtain ⟨reached, hreached, rfl⟩ := Step.inside_eq_ok.1 hstep
  exact ⟨reached, hreached, rfl⟩

theorem onJournal_eq_ok {α : Type} {step : Step Journal α} {t u : Transition} {a : α}
    (h : onJournal step t = .ok a u) :
    ∃ journal, step t.journal = .ok a journal ∧ u = { t with journal } := by
  obtain ⟨s, r, hget, hstep⟩ := Step.bind_eq_ok.1 h
  obtain ⟨rfl, rfl⟩ := Step.get_eq_ok.1 hget
  obtain ⟨journal, hjournal, rfl⟩ := Step.inside_eq_ok.1 hstep
  exact ⟨journal, hjournal, rfl⟩

theorem keysOf_eq_ok {p : Partition} {level : Level} {doc : Doc} {t u : Transition}
    {keys : List Ordinal} (h : keysOf p level doc t = .ok keys u) :
    p.keys level doc = .ok keys ∧ t.Advances u (fun _ _ => False) [] := by
  obtain ⟨⟨⟩, r, hask, hanswer⟩ := Step.bind_eq_ok.1 h
  obtain ⟨hkeys, rfl⟩ := Step.ofExcept_eq_ok.1 hanswer
  obtain ⟨journal, hjournal, rfl⟩ := onJournal_eq_ok hask
  rw [Journal.ask_eq_ok hjournal]
  exact ⟨hkeys, .of_eq rfl rfl⟩

theorem advances_insert {o : Ordinal} {b : Bucket} {t u : Transition} {fresh : Bool}
    (h : onReached (LinkTable.insert o b) t = .ok fresh u) :
    t.Advances u (fun o' b' => o' = o ∧ b' = b) [] ∧ (fresh = true ↔ ¬t.reached.Links o b) := by
  obtain ⟨reached, hinsert, rfl⟩ := onReached_eq_ok h
  obtain ⟨-, -, hfresh⟩ := LinkTable.insert_eq_ok hinsert
  exact ⟨⟨LinkTable.gains_insert hinsert, by simp, by simp⟩, hfresh⟩

theorem advances_addRow {o : Ordinal} {row : WordSet} {t u : Transition} {a : Unit}
    (hrow : row.Bounded) (h : onReached (LinkTable.addRow o row) t = .ok a u) :
    t.Advances u (fun o' b => o' = o ∧ b ∈ row) [] := by
  obtain ⟨reached, hadd, rfl⟩ := onReached_eq_ok h
  exact ⟨LinkTable.gains_addRow hrow hadd, by simp, by simp⟩

theorem advances_handOn {b : Bucket} {doc : Doc} {t u : Transition} {a : Unit}
    (h : onJournal (Journal.handOn ⟨b, doc⟩) t = .ok a u) :
    t.Advances u (fun _ _ => False) [⟨b, doc⟩] := by
  obtain ⟨journal, hjournal, rfl⟩ := onJournal_eq_ok h
  rw [Journal.handOn_eq_ok hjournal]
  exact ⟨.refl _, by simp, by simp⟩

/-! ## §2 One visit -/

/-- A bucket gains by links if it has not been served and one of them is new to it. -/
def Gains (t : Transition) (links : List (Ordinal × Bucket)) (served : List Bucket)
    (b : Bucket) : Prop :=
  b ∉ served ∧ ∃ o, (o, b) ∈ links ∧ ¬t.reached.Links o b

section Gaining

variable {t u : Transition} {o : Ordinal} {b b' : Bucket} {links : List (Ordinal × Bucket)}
  {served : List Bucket}

/-- A new link of an unserved bucket: it gains, and counts as served from here on. -/
private theorem gains_cons_of_new
    (hlinks : ∀ o' b', u.reached.Links o' b' ↔ t.reached.Links o' b' ∨ (o' = o ∧ b' = b))
    (hnew : ¬t.reached.Links o b) (hunserved : b ∉ served) :
    t.Gains ((o, b) :: links) served b' ↔ b' = b ∨ u.Gains links (b :: served) b' := by
  -- the bucket of the link gains now and is served from here on; for all others nothing changes
  by_cases hb : b' = b
  · subst hb
    exact iff_of_true ⟨hunserved, o, List.mem_cons_self, hnew⟩ (.inl rfl)
  · simp [Gains, hlinks, hb]

/-- A link that was there before, or whose bucket has been served, is of no use to any bucket. -/
private theorem gains_cons_of_not
    (hlinks : ∀ o' b', u.reached.Links o' b' ↔ t.reached.Links o' b' ∨ (o' = o ∧ b' = b))
    (hnot : b ∉ served → t.reached.Links o b) :
    t.Gains ((o, b) :: links) served b' ↔ u.Gains links served b' := by
  refine and_congr_right fun hunserved => exists_congr fun o' => ?_
  -- the link itself was of no use to an unserved bucket: it was there
  have hold : o' = o ∧ b' = b → t.reached.Links o' b' := by
    rintro ⟨rfl, rfl⟩
    exact hnot hunserved
  rw [hlinks, List.mem_cons, Prod.mk.injEq]
  constructor
  · intro hcases
    rcases hcases with ⟨hsame | hlink, hnone⟩
    · exact absurd (hold hsame) hnone
    · exact ⟨hlink, fun hthere => hnone (hthere.elim id hold)⟩
  · rintro ⟨hlink, hnone⟩
    exact ⟨.inr hlink, fun hthere => hnone (.inl hthere)⟩

end Gaining

/-- Writing links one by one adds them, and hands the document on exactly once for every bucket
that gains by them. -/
theorem markAndHandOn_eq_ok {doc : Doc} {links : List (Ordinal × Bucket)} {served : List Bucket}
    {t u : Transition} {a : Unit} (h : markAndHandOn doc links served t = .ok a u) :
    ∃ buckets : List Bucket,
      t.Advances u (fun o b => (o, b) ∈ links) (buckets.map fun b => ⟨b, doc⟩) ∧
      buckets.Nodup ∧ ∀ b, b ∈ buckets ↔ t.Gains links served b := by
  -- what is served grows along the links, so the induction is for any served buckets
  induction links generalizing served t with
  | nil =>
    obtain ⟨-, rfl⟩ := Step.pure_eq_ok.1 h
    exact ⟨[], (Advances.of_eq rfl rfl).congr (by simp), List.nodup_nil, by simp [Gains]⟩
  | cons link links ih =>
    obtain ⟨o, b⟩ := link
    obtain ⟨fresh, r, hinsert, hrest⟩ := Step.bind_eq_ok.1 h
    obtain ⟨hadd, hfresh⟩ := advances_insert hinsert
    split at hrest
    -- the bucket of this link is served now, so the links that follow do not serve it again
    case isTrue hnew =>
      obtain ⟨hnewLink, hunserved⟩ := hnew
      obtain ⟨⟨⟩, v, hhand, hrest⟩ := Step.bind_eq_ok.1 hrest
      obtain ⟨⟨⟩, w, hcount, hrest⟩ := Step.bind_eq_ok.1 hrest
      obtain rfl := Step.modify_eq_ok.1 hcount
      have hhanded := hadd.trans (advances_handOn hhand)
      obtain ⟨buckets, hrestAdd, hnodup, hmem⟩ := ih hrest
      have hcounted : v.Advances { v with handedOn := v.handedOn + 1 } (fun _ _ => False) [] :=
        .of_eq rfl rfl
      refine ⟨b :: buckets, ?_, ?_, fun b' => ?_⟩
      · refine ((hhanded.trans hcounted).trans hrestAdd).congr fun o' b' => ?_
        simp [List.mem_cons, Prod.mk.injEq]
      · exact List.nodup_cons.2 ⟨fun hb => ((hmem b).1 hb).1 List.mem_cons_self, hnodup⟩
      · rw [List.mem_cons, hmem]
        refine (gains_cons_of_new (fun o' b' => ?_) (hfresh.1 hnewLink) hunserved).symm
        simpa using hhanded.reached.links o' b'
    -- the link may be new to a bucket that has been served: it is added all the same
    case isFalse hnot =>
      obtain ⟨buckets, hrestAdd, hnodup, hmem⟩ := ih hrest
      refine ⟨buckets, ?_, hnodup, fun b' => ?_⟩
      · refine (hadd.trans hrestAdd).congr fun o' b' => ?_
        simp [List.mem_cons, Prod.mk.injEq]
      · rw [hmem]
        refine (gains_cons_of_not hadd.reached.links fun hunserved => ?_).symm
        by_contra hnone
        exact hnot ⟨hfresh.2 hnone, hunserved⟩

/-- A step has passed buckets to ordinals on behalf of a document, and has handed the document on
once for every bucket that gained by it. -/
def Serves (handingOn : Bool) (doc : Doc) (t u : Transition)
    (added : Ordinal → Bucket → Prop) : Prop :=
  ∃ buckets : List Bucket,
    t.Advances u added (buckets.map fun b => ⟨b, doc⟩) ∧ buckets.Nodup ∧
    ∀ b, b ∈ buckets ↔ handingOn = true ∧ ∃ o, added o b ∧ ¬t.reached.Links o b

theorem Serves.congr {handingOn : Bool} {doc : Doc} {t u : Transition}
    {p q : Ordinal → Bucket → Prop} (h : t.Serves handingOn doc u p)
    (hpq : ∀ o b, p o b ↔ q o b) : t.Serves handingOn doc u q := by
  obtain ⟨buckets, hadv, hnodup, hmem⟩ := h
  exact ⟨buckets, hadv.congr hpq, hnodup, by simpa only [hpq] using hmem⟩

/-- A step that leaves table and sink alone serves nobody. -/
theorem Serves.of_advances {handingOn : Bool} {doc : Doc} {t u : Transition}
    {added : Ordinal → Bucket → Prop} (h : t.Advances u (fun _ _ => False) [])
    (hnone : ∀ o b, ¬added o b) : t.Serves handingOn doc u added := by
  refine ⟨[], h.congr fun o b => ?_, List.nodup_nil, fun b => ?_⟩
  · simp [hnone]
  · simp [hnone]

/-- Adding rows one by one adds their links. -/
private theorem advances_addRows {rows : List (Ordinal × WordSet)} {t u : Transition} {a : Unit}
    (hrows : ∀ entry ∈ rows, entry.2.Bounded)
    (h : (rows.forM fun entry => onReached (LinkTable.addRow entry.1 entry.2)) t = .ok a u) :
    t.Advances u (fun o b => ∃ row, (o, row) ∈ rows ∧ b ∈ row) [] := by
  -- after each row, the links of the rows so far are there
  refine Step.forM_induction
    (fun done v => t.Advances v (fun o b => ∃ row, (o, row) ∈ done ∧ b ∈ row) [])
    ((Advances.of_eq rfl rfl).congr (by simp)) ?_ h
  rintro done ⟨o, row⟩ rest v w hsplit hdone hstep
  have hbounded : row.Bounded := hrows (o, row) (by simp [hsplit])
  refine (hdone.trans (advances_addRow hbounded hstep)).congr fun o' b => ?_
  rw [LinkTable.exists_row_append_singleton]

/-- Both ways of spreading rows add the same links. -/
theorem spread_eq_ok {handingOn : Bool} {doc : Doc} {rows : List WordSet}
    {ordinals : List Ordinal} {t u : Transition} {a : Unit} (hrows : ∀ row ∈ rows, row.Bounded)
    (h : spread handingOn doc rows ordinals t = .ok a u) :
    t.Serves handingOn doc u fun o b => o ∈ ordinals ∧ ∃ row ∈ rows, b ∈ row := by
  unfold spread at h
  split at h
  case isTrue hon =>
    -- bit by bit
    obtain ⟨buckets, hadv, hnodup, hmem⟩ := markAndHandOn_eq_ok h
    -- the links that are written are all pairs of an ordinal and a member of a row
    have hlinks (o : Ordinal) (b : Bucket) : ((o, b) ∈ rows.flatMap fun row =>
        ordinals.flatMap fun ordinal => row.toList.map fun bucket => (ordinal, bucket)) ↔
        o ∈ ordinals ∧ ∃ row ∈ rows, b ∈ row := by
      simp only [List.mem_flatMap, List.mem_map, Prod.mk.injEq]
      constructor
      · rintro ⟨row, hrow, o', ho, b', hb, rfl, rfl⟩
        exact ⟨ho, row, hrow, (WordSet.mem_toList (hrows row hrow)).1 hb⟩
      · rintro ⟨ho, row, hrow, hb⟩
        exact ⟨row, hrow, o, ho, b, (WordSet.mem_toList (hrows row hrow)).2 hb, rfl, rfl⟩
    refine ⟨buckets, hadv.congr hlinks, hnodup, fun b => ?_⟩
    simp only [hmem, Gains, hlinks, hon, List.not_mem_nil, not_false_eq_true, true_and]
  case isFalse hoff =>
    -- row by row, and nothing is handed on
    have hbounded : ∀ entry ∈ rows.flatMap fun row => ordinals.map fun ordinal => (ordinal, row),
        entry.2.Bounded := by
      intro entry hentry
      obtain ⟨row, hrow, hmap⟩ := List.mem_flatMap.1 hentry
      obtain ⟨o, -, rfl⟩ := List.mem_map.1 hmap
      exact hrows row hrow
    refine ⟨[], (advances_addRows hbounded h).congr fun o b => ?_, List.nodup_nil, by simp [hoff]⟩
    simp only [List.mem_flatMap, List.mem_map, Prod.mk.injEq]
    constructor
    · rintro ⟨row, ⟨row', hrow, o', ho, rfl, rfl⟩, hb⟩
      exact ⟨ho, row', hrow, hb⟩
    · rintro ⟨ho, row, hrow, hb⟩
      exact ⟨row, ⟨row, hrow, o, ho, rfl, rfl⟩, hb⟩

/-- A visit adds what its document brings. -/
theorem visit_eq_ok {handingOn : Bool} {p : Partition} {level : Level} {below : LinkTable}
    {doc : Doc} {t u : Transition} {a : Unit} (hbelow : below.WellFormed)
    (h : visit handingOn p level below doc t = .ok a u) :
    t.Serves handingOn doc u (p.Brings below.Links level doc) := by
  obtain ⟨lower, r, hlower, hrest⟩ := Step.bind_eq_ok.1 h
  obtain ⟨hlowerKeys, hasked⟩ := keysOf_eq_ok hlower
  split at hrest
  -- a document without keys below, or without keys above, brings nothing
  case isTrue hnone =>
    obtain ⟨-, rfl⟩ := Step.pure_eq_ok.1 hrest
    apply Serves.of_advances hasked
    rintro o b ⟨o', ho', -⟩
    simp [Partition.carries_iff hlowerKeys, List.isEmpty_iff.1 hnone] at ho'
  case isFalse =>
    obtain ⟨upper, v, hupper, hrest⟩ := Step.bind_eq_ok.1 hrest
    obtain ⟨hupperKeys, hasked'⟩ := keysOf_eq_ok hupper
    have hboth := (hasked.trans hasked').congr (q := fun _ _ => False) (by simp)
    split at hrest
    case isTrue hnone =>
      obtain ⟨-, rfl⟩ := Step.pure_eq_ok.1 hrest
      apply Serves.of_advances hboth
      rintro o b ⟨-, -, -, ho⟩
      simp [Partition.carries_iff hupperKeys, List.isEmpty_iff.1 hnone] at ho
    case isFalse =>
      -- the rows that are spread are those of the keys below, as far as there are any
      have hrows : ∀ row ∈ (ascending lower).filterMap below.row?, row.Bounded := by
        intro row hrow
        obtain ⟨o, -, hrow⟩ := List.mem_filterMap.1 hrow
        exact hbelow.bounded_of_row? hrow
      obtain ⟨buckets, hadv, hnodup, hmem⟩ := spread_eq_ok hrows hrest
      have hall : t.Serves handingOn doc u fun o b => o ∈ ascending upper ∧
          ∃ row ∈ (ascending lower).filterMap below.row?, b ∈ row := by
        refine ⟨buckets, (hboth.trans hadv).congr (by simp), hnodup, fun b => ?_⟩
        simp only [hmem, hboth.reached.links, or_false]
      refine hall.congr fun o b => ?_
      simp only [Partition.Brings, Partition.carries_iff hlowerKeys,
        Partition.carries_iff hupperKeys, mem_ascending, List.mem_filterMap, LinkTable.links_iff]
      constructor
      · rintro ⟨ho, row, ⟨o', ho', hrow⟩, hb⟩
        exact ⟨o', ho', ⟨row, hrow, hb⟩, ho⟩
      · rintro ⟨o', ho', ⟨row, hrow, hb⟩, ho⟩
        exact ⟨ho, row, ⟨o', ho', hrow⟩, hb⟩

/-! ## §3 A whole transition -/

/-- What a transition that answers leaves: the table above, and a sink that was offered, and took,
some pairs. -/
structure Climbed (handingOn : Bool) (p : Partition) (level : Level) (below : LinkTable)
    (j : Journal) (above : LinkTable) (k : Journal) (pairs : List Handoff) : Prop where
  wellFormed : above.WellFormed
  links : ∀ o b, above.Links o b ↔
    ∃ doc ∈ (p.scan (level + 1)).docs, p.Brings below.Links level doc o b
  offered : k.sink.offered.toList = j.sink.offered.toList ++ pairs
  taken : k.sink.taken.toList = j.sink.taken.toList ++ pairs
  nodup : pairs.Nodup
  mem_pairs : ∀ b doc, ⟨b, doc⟩ ∈ pairs ↔ handingOn = true ∧
    FirstBrings (p.Brings below.Links level) (p.scan (level + 1)).docs b doc

/-- What a walk has done so far: the documents met have passed on what they bring, and each of them
was handed on for the buckets it was the first to bring something. -/
private structure Walked (handingOn : Bool) (brings : Doc → Ordinal → Bucket → Prop)
    (t : Transition) (docs : List Doc) (u : Transition) (pairs : List Handoff) : Prop where
  advances : t.Advances u (fun o b => ∃ doc ∈ docs, brings doc o b) pairs
  nodup : pairs.Nodup
  mem_pairs : ∀ b doc, ⟨b, doc⟩ ∈ pairs ↔ handingOn = true ∧ FirstBrings brings docs b doc

/-- One more visit. -/
private theorem Walked.visit {handingOn : Bool} {brings : Doc → Ordinal → Bucket → Prop}
    {t u v : Transition} {docs : List Doc} {doc : Doc} {pairs : List Handoff}
    (hstart : ∀ o b, ¬t.reached.Links o b) (h : Walked handingOn brings t docs u pairs)
    (hvisit : u.Serves handingOn doc v (brings doc)) :
    ∃ pairs', Walked handingOn brings t (docs ++ [doc]) v pairs' := by
  obtain ⟨buckets, hadv, hnodup, hmem⟩ := hvisit
  -- nothing was reached at the start, so what is reached now was brought by the documents met
  have hreached (o : Ordinal) (b : Bucket) :
      u.reached.Links o b ↔ ∃ d ∈ docs, brings d o b := by
    rw [h.advances.reached.links]
    simp [hstart]
  -- to gain by this visit is to be brought something for the first time
  have hserved (b : Bucket) : b ∈ buckets ↔ handingOn = true ∧
      ∃ o, brings doc o b ∧ ∀ d ∈ docs, ¬brings d o b := by
    simp only [hmem, hreached, not_exists, not_and]
  refine ⟨pairs ++ buckets.map fun b => ⟨b, doc⟩, ?_, ?_, fun b d => ?_⟩
  · refine (h.advances.trans hadv).congr fun o b => ?_
    simp only [List.mem_append, List.mem_singleton, or_and_right, exists_or, exists_eq_left]
  · -- pairs of this visit differ in their buckets, and from earlier ones in their document
    refine List.Nodup.append h.nodup (hnodup.map fun b b' heq => ?_) fun pair hpair hnew => ?_
    · exact congrArg Handoff.bucket heq
    · -- a pair that was handed on before has a document that was met before
      obtain ⟨b, hb, rfl⟩ := List.mem_map.1 hnew
      obtain ⟨-, hdoc, -⟩ := (h.mem_pairs b doc).1 hpair
      obtain ⟨-, o, hbrings, hnone⟩ := (hserved b).1 hb
      exact hnone doc hdoc hbrings
  · simp only [List.mem_append, List.mem_map, Handoff.mk.injEq, h.mem_pairs, hserved,
      firstBrings_append_singleton]
    constructor
    · intro hcases
      rcases hcases with ⟨hon, hfirst⟩ | ⟨b', ⟨hon, hnew⟩, rfl, rfl⟩
      · exact ⟨hon, .inl hfirst⟩
      · exact ⟨hon, .inr ⟨rfl, hnew⟩⟩
    · intro hcases
      rcases hcases with ⟨hon, hfirst | ⟨rfl, hnew⟩⟩
      · exact .inl ⟨hon, hfirst⟩
      · exact .inr ⟨b, ⟨hon, hnew⟩, rfl, rfl⟩

/-- The walk of a transition over its ancestors, immediate repeats left out. -/
def walk (handingOn : Bool) (p : Partition) (level : Level) (below : LinkTable) :
    Step Transition Unit :=
  (p.scan (level + 1)).withoutRepeats.forEach (visit handingOn p level below)

/-- What the walk of a transition starts with: nothing is reached, and the scan is asked for. -/
def setOut (level : Level) (below : LinkTable) (j : Journal) : Transition :=
  ⟨.empty below.limit, 0, { j with requests := j.requests.push (.scan (level + 1)) }⟩

section Walk

variable {handingOn : Bool} {p : Partition} {level : Level} {below above : LinkTable}
  {j k : Journal} {u : Transition} {fault : Fault}

theorem climb_of_walk_ok (h : walk handingOn p level below (setOut level below j) = .ok () u) :
    climb handingOn p level below j = .ok u.reached { u.journal with
      statistics := (u.journal.statistics.addLevel (.ofNat (p.visitCount (level + 1)))).addForwarded
        u.handedOn } := by
  have hask : Journal.ask (.scan (level + 1)) j =
      .ok () { j with requests := j.requests.push (.scan (level + 1)) } := rfl
  unfold climb
  rw [Step.bind_of_ok hask]
  refine Step.bind_eq_ok.2 ⟨_, _, rfl, Step.bind_eq_ok.2 ⟨u, u.journal, ?_, rfl⟩⟩
  exact Step.inside_eq_ok.2 ⟨u, Step.bind_eq_ok.2 ⟨(), u, h, rfl⟩, rfl⟩

theorem climb_of_walk_error
    (h : walk handingOn p level below (setOut level below j) = .error fault u) :
    climb handingOn p level below j = .error fault u.journal := by
  have hask : Journal.ask (.scan (level + 1)) j =
      .ok () { j with requests := j.requests.push (.scan (level + 1)) } := rfl
  unfold climb
  rw [Step.bind_of_ok hask]
  refine Step.bind_eq_error.2 (.inr ⟨_, _, rfl, Step.bind_of_error ?_⟩)
  exact Step.inside_eq_error.2 ⟨u, Step.bind_of_error h, rfl⟩

/-- A transition that answers has come to the end of its walk, and counts it afterwards. -/
theorem climb_eq_ok_iff : climb handingOn p level below j = .ok above k ↔
    ∃ u, walk handingOn p level below (setOut level below j) = .ok () u ∧ u.reached = above ∧
      { u.journal with
        statistics := (u.journal.statistics.addLevel
          (.ofNat (p.visitCount (level + 1)))).addForwarded u.handedOn } = k := by
  cases hwalk : walk handingOn p level below (setOut level below j) with
  | ok a u => simp [climb_of_walk_ok hwalk]
  | error fault u => simp [climb_of_walk_error hwalk]

/-- A transition that fails has broken off its walk, and leaves the journal as it was by then. -/
theorem climb_eq_error_iff : climb handingOn p level below j = .error fault k ↔
    ∃ u, walk handingOn p level below (setOut level below j) = .error fault u ∧
      u.journal = k := by
  cases hwalk : walk handingOn p level below (setOut level below j) with
  | ok a u => simp [climb_of_walk_ok hwalk]
  | error fault u => simp [climb_of_walk_error hwalk, and_assoc]

end Walk

/-- A transition that answers has walked over its ancestors, immediate repeats left out, from an
empty table to the end; what is counted afterwards leaves table and sink alone. -/
theorem walk_of_climb {handingOn : Bool} {p : Partition} {level : Level} {below above : LinkTable}
    {j k : Journal} (h : climb handingOn p level below j = .ok above k) :
    ∃ (j₁ : Journal) (u : Transition), j₁.sink = j.sink ∧
      ((Visits.dropRepeats (p.scan (level + 1)).docs).forM (visit handingOn p level below) :
        Step Transition Unit) ⟨.empty below.limit, 0, j₁⟩ = .ok () u ∧
      (p.scan (level + 1)).ending = .ok () ∧ above = u.reached ∧ k.sink = u.journal.sink := by
  obtain ⟨u, hwalk, rfl, rfl⟩ := climb_eq_ok_iff.1 h
  obtain ⟨⟨⟩, w, hrun, hending⟩ := Step.bind_eq_ok.1 hwalk
  -- the end of the scan is asked for after the last visit, and leaves all as it is
  obtain ⟨hend, rfl⟩ := Step.ofExcept_eq_ok.1 hending
  exact ⟨(setOut level below j).journal, w, rfl, hrun, hend, rfl, rfl⟩

/-- A transition that answers has reached what all ancestors bring. -/
theorem climb_eq_ok {handingOn : Bool} {p : Partition} {level : Level} {below above : LinkTable}
    {j k : Journal} (hbelow : below.WellFormed)
    (h : climb handingOn p level below j = .ok above k) :
    ∃ pairs, Climbed handingOn p level below j above k pairs := by
  obtain ⟨j₁, u, hsink, hrun, -, rfl, hleft⟩ := walk_of_climb h
  have hstart (o : Ordinal) (b : Bucket) : ¬(LinkTable.empty below.limit).Links o b :=
    LinkTable.not_links_empty _ o b
  -- the invariant holds before the first visit, and every visit keeps it
  have hwalked := Step.forM_induction
    (fun done u => ∃ pairs,
      Walked handingOn (p.Brings below.Links level) ⟨.empty below.limit, 0, j₁⟩ done u pairs)
    ?start ?carry hrun
  case start =>
    refine ⟨[], (Advances.of_eq rfl rfl).congr (by simp), List.nodup_nil, ?_⟩
    simp [FirstBrings]
  case carry =>
    rintro done doc rest s t - ⟨pairs, hdone⟩ hvisit
    exact hdone.visit hstart (visit_eq_ok hbelow hvisit)
  obtain ⟨pairs, ⟨hgains, hoffered, htaken⟩, hnodup, hmem⟩ := hwalked
  -- leaving out immediate repeats changes neither what is brought nor who is first
  refine ⟨pairs, hgains.wellFormed (LinkTable.wellFormed_empty _), fun o b => ?_, ?_, ?_, hnodup,
    fun b doc => ?_⟩
  · rw [hgains.links]
    simp only [hstart, false_or, Visits.mem_dropRepeats]
  · rw [hleft, hoffered, hsink]
  · rw [hleft, htaken, hsink]
  · rw [hmem]
    simp only [Visits.firstBrings_dropRepeats]

/-- Over a table of what is reached at a level, a transition arrives at what is reached at the
next. -/
theorem Climbed.reaches {handingOn : Bool} {p : Partition} {level : Level}
    {below above : LinkTable} {j k : Journal} {pairs : List Handoff}
    {roots : Bucket → Ordinal → Prop}
    (h : Climbed handingOn p level below j above k pairs)
    (hbelow : ∀ o b, below.Links o b ↔ p.Reaches (roots b) level o) (o : Ordinal) (b : Bucket) :
    above.Links o b ↔ p.Reaches (roots b) (level + 1) o := by
  have hrel : below.Links = fun o b => p.Reaches (roots b) level o := by
    funext o b
    exact propext (hbelow o b)
  rw [h.links, Partition.reaches_succ, hrel]

end Transition

/-! ## §4 All levels -/

namespace Ascent

/-- The transitions below the last one, none of which hands anything on. -/
def lowerLevels (p : Partition) : Nat → Level → LinkTable → Step Journal LinkTable
  | 0, _, table => pure table
  | n + 1, level, table =>
    if table.isEmpty then
      pure table
    else do
      let above ← Transition.climb false p level table
      lowerLevels p n (level + 1) above

/-- A climb comes to its last transition through the lower levels. -/
theorem climbFrom_succ_eq_ok {handingOn : Bool} {p : Partition} {n : Nat} {level : Level}
    {table top : LinkTable} {j k : Journal}
    (h : climbFrom handingOn p (n + 1) level table j = .ok top k) :
    ∃ below j', lowerLevels p n level table j = .ok below j' ∧
      climbFrom handingOn p 1 (level + n) below j' = .ok top k := by
  induction n generalizing level table j with
  | zero => exact ⟨table, j, rfl, h⟩
  | succ n ih =>
    unfold climbFrom at h
    -- an empty table ends both the climb and its lower levels, which then leave it as it is
    by_cases hempty : table.isEmpty = true
    · refine ⟨table, j, ?_, ?_⟩
      · simp only [lowerLevels, hempty, if_true]
        rfl
      · simpa only [climbFrom, hempty, if_true] using h
    · -- with two or more levels to go, this transition is not the last one and hands nothing on
      simp only [hempty, Nat.add_eq_zero_iff, Nat.one_ne_zero, and_false, decide_false,
        Bool.and_false] at h
      obtain ⟨above, r, hclimb, hrest⟩ := Step.bind_eq_ok.1 h
      obtain ⟨below, j', hlower, hlast⟩ := ih hrest
      refine ⟨below, j', ?_, ?_⟩
      · simp only [lowerLevels, hempty]
        exact Step.bind_eq_ok.2 ⟨above, r, hclimb, hlower⟩
      · rwa [Nat.add_right_comm] at hlast

variable {p : Partition} {roots : Bucket → Ordinal → Prop}

/-- From an empty table nothing is reached. -/
theorem not_reaches_of_isEmpty {level : Level} {table : LinkTable} (hwf : table.WellFormed)
    (hempty : table.isEmpty = true)
    (htable : ∀ o b, table.Links o b ↔ p.Reaches (roots b) level o) (n : Nat) (o : Ordinal)
    (b : Bucket) : ¬p.Reaches (roots b) (level + n) o := by
  refine Partition.not_reaches_add (fun o' hreach => ?_) n o
  exact LinkTable.not_links_of_isEmpty hwf hempty o' b ((htable o' b).2 hreach)

/-- The lower levels arrive at what is reached there, and leave the sink as it was. -/
theorem lowerLevels_eq_ok {n : Nat} {level : Level} {table below : LinkTable} {j j' : Journal}
    (hwf : table.WellFormed) (htable : ∀ o b, table.Links o b ↔ p.Reaches (roots b) level o)
    (h : lowerLevels p n level table j = .ok below j') :
    below.WellFormed ∧ (∀ o b, below.Links o b ↔ p.Reaches (roots b) (level + n) o) ∧
      j'.sink.offered = j.sink.offered ∧ j'.sink.taken = j.sink.taken := by
  induction n generalizing level table j with
  | zero =>
    obtain ⟨rfl, rfl⟩ := Step.pure_eq_ok.1 h
    exact ⟨hwf, htable, rfl, rfl⟩
  | succ n ih =>
    by_cases hempty : table.isEmpty = true
    · simp only [lowerLevels, hempty, if_true] at h
      obtain ⟨rfl, rfl⟩ := Step.pure_eq_ok.1 h
      -- an empty table is not climbed any further, and nothing is reached from it
      refine ⟨hwf, fun o b => ?_, rfl, rfl⟩
      exact iff_of_false (LinkTable.not_links_of_isEmpty hwf hempty o b)
        (not_reaches_of_isEmpty hwf hempty htable (n + 1) o b)
    · simp only [lowerLevels, hempty] at h
      obtain ⟨above, r, hclimb, hrest⟩ := Step.bind_eq_ok.1 h
      obtain ⟨pairs, hclimbed⟩ := Transition.climb_eq_ok hwf hclimb
      -- a transition that is told not to hand on offers no pair
      have hpairs : pairs = [] := by
        apply List.eq_nil_iff_forall_not_mem.2
        intro pair hpair
        exact absurd ((hclimbed.mem_pairs pair.bucket pair.doc).1 hpair).1 (by decide)
      have hoffered : r.sink.offered = j.sink.offered := by
        simpa [hpairs] using hclimbed.offered
      have htaken : r.sink.taken = j.sink.taken := by
        simpa [hpairs] using hclimbed.taken
      have hup := ih hclimbed.wellFormed (hclimbed.reaches htable) hrest
      rwa [Nat.add_right_comm, hoffered, htaken] at hup

/-- The last transition and the turn back to buckets: the ordinals reached at the last level, and
the pairs handed on, which are those of first visits that bring something. -/
theorem lastLevel_eq_ok {handingOn : Bool} {level : Level} {below top : LinkTable}
    {j k : Journal} (hwf : below.WellFormed)
    (hbelow : ∀ o b, below.Links o b ↔ p.Reaches (roots b) level o)
    (h : climbFrom handingOn p 1 level below j = .ok top k) :
    top.WellFormed ∧ (∀ b o, top.Links b o ↔ p.Reaches (roots b) (level + 1) o) ∧
      ∃ pairs : List Handoff,
        k.sink.offered.toList = j.sink.offered.toList ++ pairs ∧
        k.sink.taken.toList = j.sink.taken.toList ++ pairs ∧ pairs.Nodup ∧
        ∀ b doc, ⟨b, doc⟩ ∈ pairs ↔ handingOn = true ∧
          FirstBrings (p.Brings (fun o b => p.Reaches (roots b) level o) level)
            (p.scan (level + 1)).docs b doc := by
  have hrel : below.Links = fun o b => p.Reaches (roots b) level o := by
    funext o b
    exact propext (hbelow o b)
  unfold climbFrom at h
  by_cases hempty : below.isEmpty = true
  · simp only [hempty, if_true] at h
    obtain ⟨rfl, rfl⟩ := Step.pure_eq_ok.1 h
    -- with an empty table the transition is left out, and nothing would be reached by it
    have hnone := not_reaches_of_isEmpty hwf hempty hbelow 0
    refine ⟨LinkTable.wellFormed_empty _, fun b o => ?_, [], by simp, by simp, .nil, fun b d => ?_⟩
    · exact iff_of_false (LinkTable.not_links_empty _ b o)
        (not_reaches_of_isEmpty hwf hempty hbelow 1 o b)
    · simp only [Nat.add_zero] at hnone
      simp [FirstBrings, Partition.Brings, hnone]
  · simp only [hempty, decide_true, Bool.and_true] at h
    obtain ⟨above, r, hclimb, hrest⟩ := Step.bind_eq_ok.1 h
    obtain ⟨pairs, hclimbed⟩ := Transition.climb_eq_ok hwf hclimb
    -- the table is turned back to buckets, with the same links
    obtain ⟨hconverse, rfl⟩ := Step.ofExcept_eq_ok.1 hrest
    obtain ⟨hwf', -, hlinks⟩ := LinkTable.converse_eq_ok hclimbed.wellFormed hconverse
    refine ⟨hwf', fun b o => ?_, pairs, hclimbed.offered, hclimbed.taken, hclimbed.nodup, ?_⟩
    · rw [hlinks, hclimbed.reaches hbelow]
    · rw [← hrel]
      exact hclimbed.mem_pairs

/-- A climb over at least one level turns the table around, climbs the lower levels, and comes to
its last transition with what is reached there and the sink as it was. -/
theorem run_succ_eq_ok {s : Settings} {last : Level} {table top : LinkTable} {j k : Journal}
    (hwf : table.WellFormed) (hlevels : s.levels = last + 1) (h : run s p table j = .ok top k) :
    ∃ byOrdinal below j', table.converse = .ok byOrdinal ∧
      lowerLevels p last 0 byOrdinal j = .ok below j' ∧
      climbFrom (s.forwardHits && s.mode = .ancestors) p 1 last below j' = .ok top k ∧
      below.WellFormed ∧ (∀ o b, below.Links o b ↔ p.Reaches (table.Links b) last o) ∧
      j'.sink.offered = j.sink.offered := by
  simp only [run, hlevels, Nat.add_one_ne_zero, if_false] at h
  obtain ⟨byOrdinal, r, hconverse, hclimb⟩ := Step.bind_eq_ok.1 h
  obtain ⟨hbyOrdinal, rfl⟩ := Step.ofExcept_eq_ok.1 hconverse
  obtain ⟨hwf', -, hlinks⟩ := LinkTable.converse_eq_ok hwf hbyOrdinal
  obtain ⟨below, j', hlower, hlast⟩ := climbFrom_succ_eq_ok hclimb
  have hbottom (o : Ordinal) (b : Bucket) :
      byOrdinal.Links o b ↔ p.Reaches (table.Links b) 0 o := by
    rw [hlinks, Partition.reaches_zero]
  obtain ⟨hbelowWf, hbelow, hkept, -⟩ := lowerLevels_eq_ok hwf' hbottom hlower
  rw [Nat.zero_add] at hlast hbelow
  exact ⟨byOrdinal, below, j', hbyOrdinal, hlower, hlast, hbelowWf, hbelow, hkept⟩

/-- A climb that answers links every bucket to the ordinals that it reaches at the last level. -/
theorem links_run {s : Settings} {table top : LinkTable} {j k : Journal}
    (hwf : table.WellFormed) (h : run s p table j = .ok top k) :
    top.WellFormed ∧ ∀ b o, top.Links b o ↔ p.Reaches (table.Links b) s.levels o := by
  -- without levels the table of the hits is returned as it is
  cases hlevels : s.levels with
  | zero =>
    simp only [run, hlevels, if_true] at h
    obtain ⟨rfl, -⟩ := Step.pure_eq_ok.1 h
    exact ⟨hwf, fun b o => Partition.reaches_zero.symm⟩
  | succ last =>
    obtain ⟨byOrdinal, below, j', -, -, hlast, hbelowWf, hbelow, -⟩ :=
      run_succ_eq_ok hwf hlevels h
    obtain ⟨htopWf, htop, -⟩ := lastLevel_eq_ok hbelowWf hbelow hlast
    exact ⟨htopWf, htop⟩

end Ascent

end Lineage
