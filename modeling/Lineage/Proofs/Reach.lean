import Lineage.Partition.Basic

/-!
# What a chain of joins reaches

The relation that climbing computes, said without tables, caches or order.  An ordinal is reached
at level 0 if it is one of the roots, and at a higher level if an ancestor of that level carries it
beside an ordinal that is reached one level below.

Walks may meet a document more than once.  `visitedBefore` are the documents that a walk has met
when it first comes to a document; `FirstBrings` says what a document is the first to bring.
-/

namespace Lineage

/-! ## §1 Reaching -/

namespace Partition

/-- A document carries an ordinal among its keys at a level. -/
def Carries (p : Partition) (level : Level) (doc : Doc) (o : Ordinal) : Prop :=
  ∃ keys, p.keys level doc = .ok keys ∧ o ∈ keys

/-- An ordinal is reached at a level from roots at level 0, through one ancestor for each level. -/
inductive Reaches (p : Partition) (roots : Ordinal → Prop) : Level → Ordinal → Prop where
  /-- The roots are reached at level 0. -/
  | root {o : Ordinal} (hroot : roots o) : Reaches p roots 0 o
  /-- An ancestor that carries a reached ordinal passes on to its own ordinals. -/
  | join {level : Level} {o o' : Ordinal} {doc : Doc} (hbelow : Reaches p roots level o)
      (hdoc : doc ∈ (p.scan (level + 1)).docs) (hlower : p.Carries level doc o)
      (hupper : p.Carries (level + 1) doc o') : Reaches p roots (level + 1) o'

/-- Through an ancestor of the next level, a bucket that reaches ordinals `below` reaches an
ordinal. -/
def Brings (p : Partition) (below : Ordinal → Bucket → Prop) (level : Level) (doc : Doc)
    (o : Ordinal) (b : Bucket) : Prop :=
  ∃ lower, p.Carries level doc lower ∧ below lower b ∧ p.Carries (level + 1) doc o

theorem carries_iff {p : Partition} {level : Level} {doc : Doc} {keys : List Ordinal}
    (h : p.keys level doc = .ok keys) {o : Ordinal} : p.Carries level doc o ↔ o ∈ keys := by
  simp [Carries, h]

theorem reaches_zero {p : Partition} {roots : Ordinal → Prop} {o : Ordinal} :
    p.Reaches roots 0 o ↔ roots o :=
  ⟨fun h => by cases h with | root hroot => exact hroot, .root⟩

/-- What is reached one level up is what the ancestors there bring. -/
theorem reaches_succ {p : Partition} {roots : Bucket → Ordinal → Prop} {level : Level}
    {o : Ordinal} {b : Bucket} :
    p.Reaches (roots b) (level + 1) o ↔ ∃ doc ∈ (p.scan (level + 1)).docs,
      p.Brings (fun o b => p.Reaches (roots b) level o) level doc o b := by
  -- the last join of a chain is what the ancestor brings
  constructor
  · intro h
    cases h with
    | join hbelow hdoc hlower hupper => exact ⟨_, hdoc, _, hlower, hbelow, hupper⟩
  · rintro ⟨doc, hdoc, lower, hlower, hbelow, hupper⟩
    exact .join hbelow hdoc hlower hupper

/-- If nothing is reached at a level, nothing is reached above it. -/
theorem not_reaches_add {p : Partition} {roots : Ordinal → Prop} {level : Level}
    (h : ∀ o, ¬p.Reaches roots level o) (n : Nat) (o : Ordinal) :
    ¬p.Reaches roots (level + n) o := by
  -- what is reached further up has something reached below it
  induction n generalizing o with
  | zero => exact h o
  | succ n ih =>
    intro hreach
    cases hreach with
    | join hbelow _ _ _ => exact ih _ hbelow

/-- Without roots nothing is reached. -/
theorem not_reaches_of_no_root {p : Partition} {roots : Ordinal → Prop} (h : ∀ o, ¬roots o)
    {level : Level} {o : Ordinal} : ¬p.Reaches roots level o := by
  intro hreach
  induction hreach with
  | root hroot => exact h _ hroot
  | join _ _ _ _ ih => exact ih

end Partition

/-! ## §2 First visits -/

/-- The documents that a walk has met before it first comes to a document. -/
def visitedBefore (docs : List Doc) (doc : Doc) : List Doc := docs.takeWhile (· ≠ doc)

/-- A document of a walk brings a bucket an ordinal that no document met before it has brought. -/
def FirstBrings (brings : Doc → Ordinal → Bucket → Prop) (docs : List Doc) (b : Bucket)
    (doc : Doc) : Prop :=
  doc ∈ docs ∧ ∃ o, brings doc o b ∧ ∀ earlier ∈ visitedBefore docs doc, ¬brings earlier o b

theorem visitedBefore_append_of_mem {docs : List Doc} {doc : Doc} (h : doc ∈ docs)
    (rest : List Doc) : visitedBefore (docs ++ rest) doc = visitedBefore docs doc := by
  unfold visitedBefore
  -- the walk comes to the document before it comes to the rest
  induction docs with
  | nil => simp at h
  | cons d docs ih =>
    by_cases hd : d = doc
    · simp [hd]
    · have hmem : doc ∈ docs := (List.mem_cons.1 h).resolve_left (Ne.symm hd)
      simp only [List.cons_append, List.takeWhile_cons, ne_eq, hd, not_false_eq_true, decide_true,
        if_true]
      rw [ih hmem]

theorem visitedBefore_append_self {docs : List Doc} {doc : Doc} (h : doc ∉ docs) :
    visitedBefore (docs ++ [doc]) doc = docs := by
  unfold visitedBefore
  have hall : ∀ d ∈ docs, decide (d ≠ doc) = true := by
    intro d hd
    have hne : d ≠ doc := fun heq => h (heq ▸ hd)
    simpa using hne
  rw [List.takeWhile_append_of_pos hall]
  simp

/-- Of two documents of a walk, one is met before the other. -/
theorem visitedBefore_total {docs : List Doc} {d e : Doc} (hd : d ∈ docs) (he : e ∈ docs)
    (hne : d ≠ e) : d ∈ visitedBefore docs e ∨ e ∈ visitedBefore docs d := by
  unfold visitedBefore
  induction docs with
  | nil => simp at hd
  | cons x docs ih =>
    -- the walk comes to one of the two first, or to neither yet
    by_cases hxd : x = d
    · subst hxd
      left
      simp [hne]
    · by_cases hxe : x = e
      · subst hxe
        right
        simp [hne.symm]
      · have hd' := (List.mem_cons.1 hd).resolve_left (Ne.symm hxd)
        have he' := (List.mem_cons.1 he).resolve_left (Ne.symm hxe)
        simpa [hxd, hxe, Ne.symm hxd, Ne.symm hxe] using ih hd' he'

/-- What a walk brings has a document that is the first to bring it. -/
theorem exists_first {brings : Doc → Prop} {docs : List Doc} (h : ∃ d ∈ docs, brings d) :
    ∃ d ∈ docs, brings d ∧ ∀ earlier ∈ visitedBefore docs d, ¬brings earlier := by
  unfold visitedBefore
  induction docs with
  | nil => simp at h
  | cons x docs ih =>
    -- either the head brings it, or the first of the rest that does is first
    by_cases hx : brings x
    · exact ⟨x, List.mem_cons_self, hx, by simp⟩
    · obtain ⟨d, hd, hbrings, hfirst⟩ := ih (by simpa [hx] using h)
      have hne : x ≠ d := fun heq => hx (heq ▸ hbrings)
      refine ⟨d, List.mem_cons_of_mem _ hd, hbrings, ?_⟩
      intro earlier hearlier
      simp only [List.takeWhile_cons, ne_eq, hne, not_false_eq_true, decide_true, if_true,
        List.mem_cons] at hearlier
      rcases hearlier with rfl | hearlier
      · exact hx
      · exact hfirst earlier hearlier

/-- One more visit brings what nothing has brought before. -/
theorem firstBrings_append_singleton {brings : Doc → Ordinal → Bucket → Prop} {docs : List Doc}
    {b : Bucket} {doc x : Doc} :
    FirstBrings brings (docs ++ [x]) b doc ↔ FirstBrings brings docs b doc ∨
      (doc = x ∧ ∃ o, brings x o b ∧ ∀ d ∈ docs, ¬brings d o b) := by
  by_cases hdoc : doc ∈ docs
  · -- a repeat brings nothing new
    have hrepeat : ¬(doc = x ∧ ∃ o, brings x o b ∧ ∀ d ∈ docs, ¬brings d o b) := by
      rintro ⟨rfl, o, hbrings, hnone⟩
      exact hnone doc hdoc hbrings
    simp [FirstBrings, visitedBefore_append_of_mem hdoc, hdoc, hrepeat]
  · -- a document met for the first time comes after all others
    by_cases hx : doc = x
    · subst hx
      simp [FirstBrings, visitedBefore_append_self hdoc, hdoc]
    · simp [FirstBrings, hdoc, hx]

/-! ## §3 Walks without immediate repeats -/

namespace Visits

theorem mem_dropRepeats {docs : List Doc} {d : Doc} : d ∈ dropRepeats docs ↔ d ∈ docs := by
  fun_induction dropRepeats docs with
  | case1 => rfl
  | case2 => rfl
  | case3 next docs ih => simp [ih]
  | case4 doc next docs hne ih => simp [ih]

/-- Dropping immediate repeats leaves the order of first visits. -/
theorem mem_visitedBefore_dropRepeats {docs : List Doc} {d e : Doc} :
    e ∈ visitedBefore (dropRepeats docs) d ↔ e ∈ visitedBefore docs d := by
  unfold visitedBefore
  fun_induction dropRepeats docs with
  | case1 => rfl
  | case2 => rfl
  | case3 next docs ih =>
    -- the document of the repeat that is dropped is still there once
    rw [ih]
    by_cases hnext : next = d
    · simp [hnext]
    · simp [hnext]
  | case4 doc next docs hne ih =>
    -- either the walk has come to the document, or it goes on from the next one
    by_cases hdoc : doc = d
    · simp [hdoc]
    · have hstep (rest : List Doc) : (doc :: rest).takeWhile (· ≠ d) =
          doc :: rest.takeWhile (· ≠ d) := by simp [hdoc]
      rw [hstep, hstep, List.mem_cons, List.mem_cons, ih]

theorem firstBrings_dropRepeats {brings : Doc → Ordinal → Bucket → Prop} {docs : List Doc}
    {b : Bucket} {doc : Doc} :
    FirstBrings brings (dropRepeats docs) b doc ↔ FirstBrings brings docs b doc := by
  simp only [FirstBrings, mem_dropRepeats, mem_visitedBefore_dropRepeats]

end Visits

/-- The documents that a walk over the ancestors of a level visits: immediate repeats count once. -/
def Partition.visitCount (p : Partition) (level : Level) : Nat :=
  (Visits.dropRepeats (p.scan level).docs).length

end Lineage
