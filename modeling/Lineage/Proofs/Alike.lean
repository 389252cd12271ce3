import Lineage.Proofs.AncestorForwarding
import Lineage.Proofs.Runs

/-!
# What storage does not decide

Two tables can hold the same links and differ in everything else: in key slots and unused words, in
rows without members, in their limits, in the order in which they were written.  Climbing does not
see the difference.  Two climbs from such tables, and two passes over the same hits, are followed
side by side: as long as both go on without a fault, they write the same links and hand on the same
pairs, one after the other.

## Main statements

- `LinkTable.Alike`: tables that hold the same links;
- `Transition.alongside_visit`, `Transition.alike_climb`: two transitions side by side;
- `Ascent.alike_run`: two climbs side by side;
- `Pass.close_alike`: the ends of two passes over the same hits;
- `Ascent.storage_decides_nothing`: climbs and passes together.
-/

namespace Lineage

/-! ## §1 Tables that hold the same links -/

/-- The members of a set settle how they are listed. -/
theorem WordSet.toList_eq_of_mem_iff {s t : WordSet} (hs : s.Bounded) (ht : t.Bounded)
    (h : ∀ b, b ∈ s ↔ b ∈ t) : s.toList = t.toList := by
  refine (toList_pairwise_lt hs).eq_of_mem_iff (toList_pairwise_lt ht) fun b => ?_
  rw [mem_toList hs, mem_toList ht, h]

namespace LinkTable

/-- Two tables hold the same links. -/
structure Alike (t t' : LinkTable) : Prop where
  wellFormed : t.WellFormed
  wellFormed' : t'.WellFormed
  links : ∀ key bit, t.Links key bit ↔ t'.Links key bit

variable {t t' u u' : LinkTable}

theorem alike_empty (limit limit' : Nat) : (empty limit).Alike (empty limit') where
  wellFormed := wellFormed_empty limit
  wellFormed' := wellFormed_empty limit'
  links key bit := iff_of_false (not_links_empty limit key bit) (not_links_empty limit' key bit)

/-- Tables that have gained the same links are still alike. -/
theorem Alike.gains {added : UInt32 → UInt32 → Prop} (h : t.Alike t') (hu : t.Gains u added)
    (hu' : t'.Gains u' added) : u.Alike u' where
  wellFormed := hu.wellFormed h.wellFormed
  wellFormed' := hu'.wellFormed h.wellFormed'
  links key bit := by rw [hu.links, hu'.links, h.links]

/-- The rows of a key list the same members. -/
theorem Alike.toList_row (h : t.Alike t') (key : UInt32) :
    (t.row key).toList = (t'.row key).toList :=
  WordSet.toList_eq_of_mem_iff (h.wellFormed.rows key) (h.wellFormed'.rows key) (h.links key)

theorem Alike.not_links (h : t.Alike t') (hnone : ∀ key bit, ¬t.Links key bit) (key bit : UInt32) :
    ¬t'.Links key bit :=
  fun hlink => hnone key bit ((h.links key bit).2 hlink)

/-- If there is a link, both tables have rows. -/
theorem Alike.not_isEmpty (h : t.Alike t') (hsome : ¬∀ key bit, ¬t.Links key bit) :
    ¬t.isEmpty = true ∧ ¬t'.isEmpty = true :=
  ⟨fun hempty => hsome (not_links_of_isEmpty h.wellFormed hempty),
    fun hempty => hsome fun key bit hlink =>
      not_links_of_isEmpty h.wellFormed' hempty key bit ((h.links key bit).1 hlink)⟩

/-- A row that is created without members adds no link. -/
theorem gains_written_id (t : LinkTable) (key : UInt32) :
    t.Gains (t.written key id) fun _ _ => False where
  links k b := by
    unfold Links
    rw [row_written]
    -- the row may be new, but it reads as the empty one that was read there before
    by_cases hk : k = key
    · simp [hk]
    · simp [hk]
  limit := limit_written ..
  wellFormed hwf := hwf.written (hwf.rows key)

/-- Going through the rows that are there, or through the rows of all keys, is the same, if rows
without members do not matter. -/
theorem flatMap_filterMap_row? {β : Type} (t : LinkTable) (keys : List UInt32)
    (f : List UInt32 → List β) (hf : f [] = []) :
    (keys.filterMap t.row?).flatMap (fun row => f row.toList) =
      keys.flatMap fun key => f (t.row key).toList := by
  induction keys with
  | nil => rfl
  | cons key keys ih =>
    cases hrow : t.row? key with
    -- a key without a row is passed over on the left, and brings `f []` on the right
    | none =>
      have hlist : (t.row key).toList = [] := by
        rw [row, hrow, Option.getD_none]
        rfl
      rw [List.filterMap_cons_none hrow, ih, List.flatMap_cons, hlist, hf, List.nil_append]
    | some bits =>
      have hlist : t.row key = bits := by rw [row, hrow, Option.getD_some]
      rw [List.filterMap_cons_some hrow, List.flatMap_cons, ih, List.flatMap_cons, hlist]

end LinkTable

/-! ## §2 Two transitions side by side -/

/-- Two stretches of work hand on the same pairs in the same order, and their sinks take them. -/
def HandOnAlike (j k j' k' : Journal) : Prop :=
  ∃ pairs, j.sink.Moves k.sink pairs pairs ∧ j'.sink.Moves k'.sink pairs pairs

namespace Transition

variable {t t' u u' v v' : Transition} {a a' : Unit} {doc : Doc} {handingOn : Bool}
  {p : Partition} {level : Level} {below below' above above' : LinkTable} {j j' k k' : Journal}

/-- Two transitions have moved on alike: they have added the same links and handed on the same
pairs. -/
def Alongside (t t' u u' : Transition) : Prop :=
  ∃ added pairs, t.Advances u added pairs ∧ t'.Advances u' added pairs

theorem Alongside.refl (t t' : Transition) : Alongside t t' t t' :=
  ⟨_, _, .of_eq rfl rfl, .of_eq rfl rfl⟩

theorem Alongside.trans (h : Alongside t t' u u') (h' : Alongside u u' v v') :
    Alongside t t' v v' := by
  obtain ⟨added, pairs, hadv, hadv'⟩ := h
  obtain ⟨added', pairs', hnext, hnext'⟩ := h'
  exact ⟨_, _, hadv.trans hnext, hadv'.trans hnext'⟩

theorem Alongside.alike (h : Alongside t t' u u') (hstart : t.reached.Alike t'.reached) :
    u.reached.Alike u'.reached := by
  obtain ⟨added, pairs, hadv, hadv'⟩ := h
  exact hstart.gains hadv.reached hadv'.reached

theorem Alongside.handOnAlike (h : Alongside t t' u u') :
    HandOnAlike t.journal u.journal t'.journal u'.journal := by
  obtain ⟨added, pairs, hadv, hadv'⟩ := h
  exact ⟨pairs, ⟨hadv.offered, hadv.taken, .refl _⟩, ⟨hadv'.offered, hadv'.taken, .refl _⟩⟩

/-- A link is new to both tables or to neither, so a document is handed on in both transitions or in
neither. -/
theorem alongside_markAndHandOn {links : List (Ordinal × Bucket)} {served : List Bucket}
    (hstart : t.reached.Alike t'.reached) (h : markAndHandOn doc links served t = .ok a u)
    (h' : markAndHandOn doc links served t' = .ok a' u') : Alongside t t' u u' := by
  -- the tables and the buckets served change with every link, and stay alike
  induction links generalizing served t t' with
  | nil =>
    obtain ⟨-, rfl⟩ := Step.pure_eq_ok.1 h
    obtain ⟨-, rfl⟩ := Step.pure_eq_ok.1 h'
    exact .refl _ _
  | cons link links ih =>
    obtain ⟨o, b⟩ := link
    obtain ⟨fresh, r, hinsert, hrest⟩ := Step.bind_eq_ok.1 h
    obtain ⟨fresh', r', hinsert', hrest'⟩ := Step.bind_eq_ok.1 h'
    obtain ⟨hadd, hfresh⟩ := advances_insert hinsert
    obtain ⟨hadd', hfresh'⟩ := advances_insert hinsert'
    -- a link is new exactly if it was not there, which the links tell
    obtain rfl : fresh = fresh' := by rw [Bool.eq_iff_iff, hfresh, hfresh', hstart.links]
    have hinserted : Alongside t t' r r' := ⟨_, _, hadd, hadd'⟩
    split at hrest
    -- new in both: each is offered the pair, and has taken it, since both go on
    case isTrue hnew =>
      rw [if_pos hnew] at hrest'
      obtain ⟨⟨⟩, v, hhand, hrest⟩ := Step.bind_eq_ok.1 hrest
      obtain ⟨⟨⟩, w, hcount, hrest⟩ := Step.bind_eq_ok.1 hrest
      obtain rfl := Step.modify_eq_ok.1 hcount
      obtain ⟨⟨⟩, v', hhand', hrest'⟩ := Step.bind_eq_ok.1 hrest'
      obtain ⟨⟨⟩, w', hcount', hrest'⟩ := Step.bind_eq_ok.1 hrest'
      obtain rfl := Step.modify_eq_ok.1 hcount'
      have hhanded : Alongside r r' v v' := ⟨_, _, advances_handOn hhand, advances_handOn hhand'⟩
      have hcounted : Alongside v v' { v with handedOn := v.handedOn + 1 }
          { v' with handedOn := v'.handedOn + 1 } := ⟨_, _, .of_eq rfl rfl, .of_eq rfl rfl⟩
      have hnow := (hinserted.trans hhanded).trans hcounted
      exact hnow.trans (ih (hnow.alike hstart) hrest hrest')
    -- in both already: nothing is offered, and the links that follow are met in step
    case isFalse hold =>
      rw [if_neg hold] at hrest'
      exact hinserted.trans (ih (hinserted.alike hstart) hrest hrest')

/-- Spreading the rows of some keys of two tables that are alike: bit by bit the same links are
written in the same order, and row by row the same links are added and nothing is handed on. -/
theorem alongside_spread {lower upper : List Ordinal} (hbelow : below.Alike below')
    (hstart : t.reached.Alike t'.reached)
    (h : spread handingOn doc (lower.filterMap below.row?) upper t = .ok a u)
    (h' : spread handingOn doc (lower.filterMap below'.row?) upper t' = .ok a' u') :
    Alongside t t' u u' := by
  cases handingOn with
  | true =>
    simp only [spread, if_true] at h h'
    -- rows come in the order of the keys; only some without members may be left out of one table
    have hlinks (table : LinkTable) :
        ((lower.filterMap table.row?).flatMap fun row =>
          upper.flatMap fun o => row.toList.map fun b => (o, b)) =
        lower.flatMap fun key => upper.flatMap fun o =>
          (table.row key).toList.map fun b => (o, b) :=
      table.flatMap_filterMap_row? lower
        (fun bits => upper.flatMap fun o => bits.map fun b => (o, b)) (by simp)
    rw [hlinks] at h h'
    simp only [← hbelow.toList_row] at h'
    exact alongside_markAndHandOn hstart h h'
  | false =>
    -- nothing is handed on, and what is added is known as a set
    have hrows (table : LinkTable) (hwf : table.WellFormed) :
        ∀ row ∈ lower.filterMap table.row?, row.Bounded := by
      intro row hrow
      obtain ⟨o, -, hrow⟩ := List.mem_filterMap.1 hrow
      exact hwf.bounded_of_row? hrow
    have hmem (table : LinkTable) (b : Bucket) :
        (∃ row ∈ lower.filterMap table.row?, b ∈ row) ↔ ∃ o ∈ lower, table.Links o b := by
      simp only [List.mem_filterMap, LinkTable.links_iff]
      constructor
      · rintro ⟨row, ⟨o, ho, hrow⟩, hb⟩
        exact ⟨o, ho, row, hrow, hb⟩
      · rintro ⟨o, ho, row, hrow, hb⟩
        exact ⟨row, ⟨o, ho, hrow⟩, hb⟩
    obtain ⟨buckets, hadv, -, hnone⟩ := spread_eq_ok (hrows below hbelow.wellFormed) h
    obtain ⟨buckets', hadv', -, hnone'⟩ := spread_eq_ok (hrows below' hbelow.wellFormed') h'
    obtain rfl : buckets = [] := by simpa [List.eq_nil_iff_forall_not_mem] using hnone
    obtain rfl : buckets' = [] := by simpa [List.eq_nil_iff_forall_not_mem] using hnone'
    refine ⟨_, _, hadv, hadv'.congr fun o b => ?_⟩
    simp only [hmem, hbelow.links]

/-- Two visits of one document.  What it carries is the same for both. -/
theorem alongside_visit (hbelow : below.Alike below') (hstart : t.reached.Alike t'.reached)
    (h : visit handingOn p level below doc t = .ok a u)
    (h' : visit handingOn p level below' doc t' = .ok a' u') : Alongside t t' u u' := by
  obtain ⟨lower, r, hlower, hrest⟩ := Step.bind_eq_ok.1 h
  obtain ⟨lower', r', hlower', hrest'⟩ := Step.bind_eq_ok.1 h'
  obtain ⟨hkeys, hasked⟩ := keysOf_eq_ok hlower
  obtain ⟨hkeys', hasked'⟩ := keysOf_eq_ok hlower'
  -- keys are read from the partition, which has no memory
  obtain rfl : lower = lower' := Except.ok.inj (hkeys.symm.trans hkeys')
  have hread : Alongside t t' r r' := ⟨_, _, hasked, hasked'⟩
  split at hrest
  case isTrue hnone =>
    rw [if_pos hnone] at hrest'
    obtain ⟨-, rfl⟩ := Step.pure_eq_ok.1 hrest
    obtain ⟨-, rfl⟩ := Step.pure_eq_ok.1 hrest'
    exact hread
  -- the second question is asked in both or in neither, since the first answer was the same
  case isFalse hsome =>
    rw [if_neg hsome] at hrest'
    obtain ⟨upper, v, hupper, hrest⟩ := Step.bind_eq_ok.1 hrest
    obtain ⟨upper', v', hupper', hrest'⟩ := Step.bind_eq_ok.1 hrest'
    obtain ⟨hkeys, hasked⟩ := keysOf_eq_ok hupper
    obtain ⟨hkeys', hasked'⟩ := keysOf_eq_ok hupper'
    obtain rfl : upper = upper' := Except.ok.inj (hkeys.symm.trans hkeys')
    have hboth : Alongside t t' v v' := hread.trans ⟨_, _, hasked, hasked'⟩
    split at hrest
    case isTrue hnone =>
      rw [if_pos hnone] at hrest'
      obtain ⟨-, rfl⟩ := Step.pure_eq_ok.1 hrest
      obtain ⟨-, rfl⟩ := Step.pure_eq_ok.1 hrest'
      exact hboth
    case isFalse hsome =>
      rw [if_neg hsome] at hrest'
      exact hboth.trans (alongside_spread hbelow (hboth.alike hstart) hrest hrest')

/-- Two transitions that answer.  Both start from empty tables and walk over the same documents. -/
theorem alike_climb (hbelow : below.Alike below')
    (h : climb handingOn p level below j = .ok above k)
    (h' : climb handingOn p level below' j' = .ok above' k') :
    above.Alike above' ∧ HandOnAlike j k j' k' := by
  obtain ⟨j₁, u, hsink, hrun, -, rfl, hleft⟩ := walk_of_climb h
  obtain ⟨j₁', u', hsink', hrun', -, rfl, hleft'⟩ := walk_of_climb h'
  -- the limits may differ, but both tables start without links
  have hempty := LinkTable.alike_empty below.limit below'.limit
  have hwalked := Step.forM_induction_both
    (Alongside ⟨.empty below.limit, 0, j₁⟩ ⟨.empty below'.limit, 0, j₁'⟩)
    (.refl _ _) ?carry hrun hrun'
  case carry =>
    intro doc _ t t' u u' hdone hvisit hvisit'
    exact hdone.trans (alongside_visit hbelow (hdone.alike hempty) hvisit hvisit')
  refine ⟨hwalked.alike hempty, ?_⟩
  unfold HandOnAlike
  rw [hleft, hleft', ← hsink, ← hsink']
  exact hwalked.handOnAlike

end Transition

/-! ## §3 Two climbs side by side -/

namespace Ascent

variable {s : Settings} {p : Partition} {handingOn : Bool} {level : Level}
  {below below' table table' top top' : LinkTable} {j j' k k' : Journal}

/-- From a table without links the last transition, if it takes place at all, hands nothing on. -/
theorem moves_lastLevel_of_not_links (hwf : below.WellFormed) (hnone : ∀ o b, ¬below.Links o b)
    (h : climbFrom handingOn p 1 level below j = .ok top k) : j.sink.Moves k.sink [] [] := by
  unfold climbFrom at h
  split at h
  case isTrue =>
    obtain ⟨-, rfl⟩ := Step.pure_eq_ok.1 h
    exact .refl _
  case isFalse =>
    obtain ⟨above, r, hclimb, hrest⟩ := Step.bind_eq_ok.1 h
    obtain ⟨pairs, hclimbed⟩ := Transition.climb_eq_ok hwf hclimb
    obtain ⟨-, rfl⟩ := Step.ofExcept_eq_ok.1 hrest
    -- a pair would be there for a link below that its document brings up
    have hpairs : pairs = [] := by
      apply List.eq_nil_iff_forall_not_mem.2
      rintro ⟨b, doc⟩ hpair
      obtain ⟨-, -, o, ⟨lower, -, hlink, -⟩, -⟩ := (hclimbed.mem_pairs b doc).1 hpair
      exact hnone lower b hlink
    subst hpairs
    exact ⟨hclimbed.offered, hclimbed.taken, .refl _⟩

/-- Two last transitions.  One of them may be left out for want of rows; then there are no links for
the other one either. -/
theorem handOnAlike_lastLevel (halike : below.Alike below')
    (h : climbFrom handingOn p 1 level below j = .ok top k)
    (h' : climbFrom handingOn p 1 level below' j' = .ok top' k') : HandOnAlike j k j' k' := by
  -- whether there are rows may differ, whether there are links may not
  by_cases hnone : ∀ o b, ¬below.Links o b
  · exact ⟨[], moves_lastLevel_of_not_links halike.wellFormed hnone h,
      moves_lastLevel_of_not_links halike.wellFormed' (halike.not_links hnone) h'⟩
  · obtain ⟨hrows, hrows'⟩ := halike.not_isEmpty hnone
    unfold climbFrom at h h'
    rw [if_neg hrows] at h
    rw [if_neg hrows'] at h'
    obtain ⟨above, r, hclimb, hrest⟩ := Step.bind_eq_ok.1 h
    obtain ⟨above', r', hclimb', hrest'⟩ := Step.bind_eq_ok.1 h'
    obtain ⟨-, rfl⟩ := Step.ofExcept_eq_ok.1 hrest
    obtain ⟨-, rfl⟩ := Step.ofExcept_eq_ok.1 hrest'
    exact (Transition.alike_climb halike hclimb hclimb').2

/-- What comes before the last transition hands nothing on. -/
theorem moves_lowerLevels {n : Nat} {byOrdinal : LinkTable} (hwf : table.WellFormed)
    (hconverse : table.converse = .ok byOrdinal)
    (h : lowerLevels p n 0 byOrdinal j = .ok below k) : j.sink.Moves k.sink [] [] := by
  obtain ⟨hwf', -, hlinks⟩ := LinkTable.converse_eq_ok hwf hconverse
  have hbottom (o : Ordinal) (b : Bucket) :
      byOrdinal.Links o b ↔ p.Reaches (table.Links b) 0 o := by
    rw [hlinks, Partition.reaches_zero]
  obtain ⟨-, -, hoffered, htaken⟩ := lowerLevels_eq_ok hwf' hbottom h
  exact ⟨by simp [hoffered], by simp [htaken], .refl _⟩

/-- A climb from a table without links hands nothing on. -/
theorem moves_run_of_not_links (hwf : table.WellFormed) (hnone : ∀ b o, ¬table.Links b o)
    (h : run s p table j = .ok top k) : j.sink.Moves k.sink [] [] := by
  cases hlevels : s.levels with
  | zero =>
    simp only [run, hlevels, if_true] at h
    obtain ⟨-, rfl⟩ := Step.pure_eq_ok.1 h
    exact .refl _
  | succ last =>
    obtain ⟨byOrdinal, below, j₁, hconverse, hlower, hlast, hbelowWf, hbelow, -⟩ :=
      run_succ_eq_ok hwf hlevels h
    -- nothing is reached from nothing, so the last transition has nothing to spread either
    have hbelowNone (o : Ordinal) (b : Bucket) : ¬below.Links o b := by
      rw [hbelow]
      exact Partition.not_reaches_of_no_root (hnone b)
    exact (moves_lowerLevels hwf hconverse hlower).trans
      (moves_lastLevel_of_not_links hbelowWf hbelowNone hlast)

/-- Two climbs that answer arrive at tables that are alike, and hand on the same pairs in the same
order. -/
theorem alike_run (halike : table.Alike table') (h : run s p table j = .ok top k)
    (h' : run s p table' j' = .ok top' k') : top.Alike top' ∧ HandOnAlike j k j' k' := by
  -- what is reached is settled by the links
  have hlinks : table'.Links = table.Links := by
    funext b o
    exact propext (halike.links b o).symm
  obtain ⟨htopWf, htop⟩ := links_run halike.wellFormed h
  obtain ⟨htopWf', htop'⟩ := links_run halike.wellFormed' h'
  refine ⟨⟨htopWf, htopWf', fun b o => by rw [htop, htop', hlinks]⟩, ?_⟩
  -- without levels nothing is handed on; else it is up to the two last transitions
  cases hlevels : s.levels with
  | zero =>
    simp only [run, hlevels, if_true] at h h'
    obtain ⟨-, rfl⟩ := Step.pure_eq_ok.1 h
    obtain ⟨-, rfl⟩ := Step.pure_eq_ok.1 h'
    exact ⟨[], .refl _, .refl _⟩
  | succ last =>
    obtain ⟨byOrdinal, below, j₁, hconverse, hlower, hlast, hbelowWf, hbelow, -⟩ :=
      run_succ_eq_ok halike.wellFormed hlevels h
    obtain ⟨byOrdinal', below', j₁', hconverse', hlower', hlast', hbelowWf', hbelow', -⟩ :=
      run_succ_eq_ok halike.wellFormed' hlevels h'
    have hbelowAlike : below.Alike below' :=
      ⟨hbelowWf, hbelowWf', fun o b => by rw [hbelow, hbelow', hlinks]⟩
    have hmoves := moves_lowerLevels halike.wellFormed hconverse hlower
    have hmoves' := moves_lowerLevels halike.wellFormed' hconverse' hlower'
    obtain ⟨pairs, hpairs, hpairs'⟩ := handOnAlike_lastLevel hbelowAlike hlast hlast'
    exact ⟨pairs, hmoves.trans hpairs, hmoves'.trans hpairs'⟩

end Ascent

/-! ## §4 Two passes side by side -/

variable {s : Settings} {p : Partition} {hits hits' : List (Doc × Bucket)}
  {tally tally' : Tally Bucket} {j j' k k' : Journal}

/-- If no bucket has a link, nothing is handed on on the way to the numbers. -/
theorem Facts.moves_tally_of_not_links {table : LinkTable} (hwf : table.WellFormed)
    (hnone : ∀ b o, ¬table.Links b o) (h : (links table).tally s p j = .ok tally k) :
    j.sink.Moves k.sink [] [] := by
  simp only [Facts.tally] at h
  split at h
  case isTrue =>
    obtain ⟨-, rfl⟩ := Step.pure_eq_ok.1 h
    exact .refl _
  case isFalse =>
    obtain ⟨top, r, hrun, hpure⟩ := Step.bind_eq_ok.1 h
    obtain ⟨-, rfl⟩ := Step.pure_eq_ok.1 hpure
    exact Ascent.moves_run_of_not_links hwf hnone hrun

/-- What two tables that are alike hand on, on the way to the numbers. -/
theorem Facts.handOnAlike_tally_links {table table' : LinkTable} (halike : table.Alike table')
    (h : (links table).tally s p j = .ok tally k)
    (h' : (links table').tally s p j' = .ok tally' k') : HandOnAlike j k j' k' := by
  -- one table may have rows without links and be climbed from, while the other one is not
  by_cases hnone : ∀ b o, ¬table.Links b o
  · exact ⟨[], moves_tally_of_not_links halike.wellFormed hnone h,
      moves_tally_of_not_links halike.wellFormed' (halike.not_links hnone) h'⟩
  · obtain ⟨hrows, hrows'⟩ := halike.not_isEmpty hnone
    simp only [Facts.tally] at h h'
    rw [if_neg hrows] at h
    rw [if_neg hrows'] at h'
    obtain ⟨top, r, hrun, hpure⟩ := Step.bind_eq_ok.1 h
    obtain ⟨top', r', hrun', hpure'⟩ := Step.bind_eq_ok.1 h'
    obtain ⟨-, rfl⟩ := Step.pure_eq_ok.1 hpure
    obtain ⟨-, rfl⟩ := Step.pure_eq_ok.1 hpure'
    exact (Ascent.alike_run halike hrun hrun').2

/-- Facts of the same hits lead to the same numbers, and on the way to them the same pairs are
handed on in the same order. -/
theorem Facts.OfHits.tally_alike {facts facts' : Facts} (hfacts : facts.OfHits s p hits)
    (hfacts' : facts'.OfHits s p hits) (h : facts.tally s p j = .ok tally k)
    (h' : facts'.tally s p j' = .ok tally' k') : tally = tally' ∧ HandOnAlike j k j' k' := by
  refine ⟨(hfacts.tally_eq_ok h).1.unique (hfacts'.tally_eq_ok h').1, ?_⟩
  -- the settings tell of which kind facts are, so both are of the same
  cases facts with
  | documents seen =>
    cases facts' with
    | documents seen' =>
      obtain ⟨-, rfl⟩ := Step.pure_eq_ok.1 h
      obtain ⟨-, rfl⟩ := Step.pure_eq_ok.1 h'
      exact ⟨[], .refl _, .refl _⟩
    | links table' => cases hfacts.1.symm.trans hfacts'.1
  | links table =>
    cases facts' with
    | documents seen' => cases hfacts.1.symm.trans hfacts'.1
    | links table' =>
      obtain ⟨-, hwf, hlinks⟩ := hfacts
      obtain ⟨-, hwf', hlinks'⟩ := hfacts'
      exact handOnAlike_tally_links
        ⟨hwf, hwf', fun b o => (hlinks b o).trans (hlinks' b o).symm⟩ h h'

namespace Pass

variable {opened : Except Fault Partition} {pass pass' : Pass}

/-- A pass has been started and has taken some hits without a fault. -/
def HasTaken (pass : Pass) (s : Settings) (opened : Except Fault Partition)
    (hits : List (Doc × Bucket)) (j : Journal) : Prop :=
  ∃ started j₀ j₁, start s opened j₀ = .ok started j₁ ∧
    (hits.forM fun (hit, b) => take hit b : Step (Pass × Journal) Unit) (started, j₁) =
      .ok () (pass, j)

/-- By then a pass is degraded, or it holds the facts of its hits; which one, its partition tells. -/
theorem HasTaken.settled (h : pass.HasTaken s opened hits j) :
    ∃ found j₀ j₁, settle s opened j₀ = .ok found j₁ ∧ match found with
      | none => pass.active = none
      | some p => ∃ g, pass = ⟨s, some (p, g)⟩ ∧ g.facts.OfHits s p hits := by
  obtain ⟨started, j₀, j₁, hstart, htakes⟩ := h
  obtain ⟨found, r, hsettle, hrest⟩ := Step.bind_eq_ok.1 hstart
  refine ⟨found, j₀, r, hsettle, ?_⟩
  -- hits leave a degraded pass degraded, and an active one with the facts of these hits
  cases found with
  | none =>
    obtain ⟨rfl, -⟩ := Step.pure_eq_ok.1 hrest
    exact active_eq_none_of_forM_take rfl htakes
  | some p =>
    obtain ⟨hvalid, -, -⟩ := settle_eq_ok hsettle
    obtain ⟨g, r', hg, hpure⟩ := Step.bind_eq_ok.1 hrest
    obtain ⟨rfl, rfl⟩ := Step.pure_eq_ok.1 hpure
    obtain ⟨hgatherer, rfl⟩ := Step.ofExcept_eq_ok.1 hg
    obtain ⟨g', htaken, hpass⟩ := forM_take_eq_ok htakes
    exact ⟨g', hpass, (Gatherer.forM_take_eq_ok (s.one_le_levels hvalid) hgatherer htaken).1⟩

/-- Two passes over the same hits, in whatever order and with whatever repeats: if both end without
a fault, they return the same numbers, and in the end hand on the same pairs in the same order. -/
theorem close_alike (h : pass.HasTaken s opened hits j) (h' : pass'.HasTaken s opened hits' j')
    (hsame : ∀ hit, hit ∈ hits ↔ hit ∈ hits') (hclose : pass.close j = .ok tally k)
    (hclose' : pass'.close j' = .ok tally' k') : tally = tally' ∧ HandOnAlike j k j' k' := by
  obtain ⟨found, j₀, j₁, hsettle, htaken⟩ := h.settled
  obtain ⟨found', j₀', j₁', hsettle', htaken'⟩ := h'.settled
  -- the journal has no say in whether a pass is degraded
  obtain rfl : found = found' := (settle_found hsettle).1.trans (settle_found hsettle').1.symm
  cases found with
  | none =>
    simp only [close, show pass.active = none from htaken] at hclose
    simp only [close, show pass'.active = none from htaken'] at hclose'
    obtain ⟨rfl, rfl⟩ := Step.pure_eq_ok.1 hclose
    obtain ⟨rfl, rfl⟩ := Step.pure_eq_ok.1 hclose'
    exact ⟨rfl, [], .refl _, .refl _⟩
  | some p =>
    obtain ⟨g, rfl, hfacts⟩ := htaken
    obtain ⟨g', rfl, hfacts'⟩ := htaken'
    obtain ⟨facts, r, hgathered, htally⟩ := Step.bind_eq_ok.1 hclose
    obtain ⟨facts', r', hgathered', htally'⟩ := Step.bind_eq_ok.1 hclose'
    -- gatherers are closed without touching the sinks
    obtain ⟨rfl, hsink⟩ := Gatherer.close_eq_ok hgathered
    obtain ⟨rfl, hsink'⟩ := Gatherer.close_eq_ok hgathered'
    unfold HandOnAlike
    rw [← hsink, ← hsink']
    exact (hfacts.congr hsame).tally_alike hfacts' htally htally'

end Pass

/-! ## §5 Climbs and passes together -/

namespace Ascent

/-- How links are stored decides nothing.  Two climbs from tables that hold the same links, and two
passes that have taken the same hits, come to the same results and hand on the same pairs in the
same order, whenever both answer.  (All tables that a sequence of writes leads to are well-formed,
see `LinkTable.wellFormed_reached`.) -/
theorem storage_decides_nothing (s : Settings) :
    (∀ (p : Partition) (table table' top top' : LinkTable) (j j' k k' : Journal),
      table.Alike table' → run s p table j = .ok top k → run s p table' j' = .ok top' k' →
        (∀ key, (top.row key).toList = (top'.row key).toList) ∧ HandOnAlike j k j' k') ∧
    ∀ (opened : Except Fault Partition) (hits hits' : List (Doc × Bucket)) (pass pass' : Pass)
      (tally tally' : Tally Bucket) (j j' k k' : Journal),
      pass.HasTaken s opened hits j → pass'.HasTaken s opened hits' j' →
        (∀ hit, hit ∈ hits ↔ hit ∈ hits') →
          pass.close j = .ok tally k → pass'.close j' = .ok tally' k' →
            tally = tally' ∧ HandOnAlike j k j' k' := by
  constructor
  · intro p table table' top top' j j' k k' halike hrun hrun'
    obtain ⟨htop, hpairs⟩ := alike_run halike hrun hrun'
    exact ⟨htop.toList_row, hpairs⟩
  · intro opened hits hits' pass pass' tally tally' j j' k k' htaken htaken' hsame hclose hclose'
    exact Pass.close_alike htaken htaken' hsame hclose hclose'

/-- Two links, written one after the other. -/
def tidy : LinkTable := ((LinkTable.empty 4096).written 0 (·.insert 3)).written 1 (·.insert 3)

/-- The same links, written the other way round after a row without members, and with more room. -/
def cluttered : LinkTable :=
  (((LinkTable.empty 65536).written 40 id).written 1 (·.insert 3)).written 0 (·.insert 3)

private theorem tidy_alike_cluttered : tidy.Alike cluttered := by
  -- both have gained the two links, whatever else was written
  have htidy := ((LinkTable.empty 4096).gains_written_insert 0 3).trans
    (LinkTable.gains_written_insert _ 1 3)
  have hcluttered := (((LinkTable.empty 65536).gains_written_id 40).trans
    (LinkTable.gains_written_insert _ 1 3)).trans (LinkTable.gains_written_insert _ 0 3)
  refine (LinkTable.alike_empty 4096 65536).gains htidy (hcluttered.congr fun key bit => ?_)
  rw [false_or, or_comm]

/-- Ancestors are handed on over two levels. -/
private def deep : Settings :=
  { Settings.default with levels := 2, mode := .ancestors, forwardHits := true }

private theorem run_deep (table : LinkTable)
    (h : (run deep dynasty.toPartition table).Answers (.start .unlimited) fun _ k =>
      k.sink.taken.size = 4) :
    ∃ top k, run deep dynasty.toPartition table (.start .unlimited) = .ok top k ∧
      k.sink.taken.size = 4 :=
  Step.answers_iff.1 h

private theorem hasTaken_deep (hits : List (Doc × Bucket))
    (h : (Pass.start deep (.ok dynasty.toPartition)).Answers (.start .unlimited) fun started j =>
      (hits.forM fun (hit, b) => Pass.take hit b : Step (Pass × Journal) Unit).Answers (started, j)
        fun _ taken => taken.1.close.Answers taken.2 fun tally _ => tally.get 1 = 2) :
    ∃ (pass : Pass) (j : Journal) (tally : Tally Bucket) (k : Journal),
      pass.HasTaken deep (.ok dynasty.toPartition) hits j ∧ pass.close j = .ok tally k ∧
        tally.get 1 = 2 := by
  obtain ⟨started, j₁, hstart, hrest⟩ := Step.answers_iff.1 h
  obtain ⟨⟨⟩, ⟨pass, j⟩, htakes, hrest⟩ := Step.answers_iff.1 hrest
  obtain ⟨tally, k, hclose, htwo⟩ := Step.answers_iff.1 hrest
  exact ⟨pass, j, tally, k, ⟨started, _, j₁, hstart, htakes⟩, hclose, htwo⟩

/-- From either table four pairs are handed on, and the order in which hits are taken, with one of
them taken twice, makes no difference to a pass. -/
theorem storage_decides_nothing_dynasty :
    (∃ top top' k k', run deep dynasty.toPartition tidy (.start .unlimited) = .ok top k ∧
      run deep dynasty.toPartition cluttered (.start .unlimited) = .ok top' k' ∧
      k.sink.taken.size = 4 ∧ (∀ key, (top.row key).toList = (top'.row key).toList) ∧
      HandOnAlike (.start .unlimited) k (.start .unlimited) k') ∧
    ∃ (pass pass' : Pass) (tally tally' : Tally Bucket) (j j' k k' : Journal),
      pass.HasTaken deep (.ok dynasty.toPartition) [(⟨0, 1⟩, 0), (⟨0, 1⟩, 1)] j ∧
      pass'.HasTaken deep (.ok dynasty.toPartition)
        [(⟨0, 1⟩, 1), (⟨0, 1⟩, 0), (⟨0, 1⟩, 1)] j' ∧
      pass.close j = .ok tally k ∧ pass'.close j' = .ok tally' k' ∧ tally.get 1 = 2 ∧
      tally = tally' ∧ HandOnAlike j k j' k' := by
  constructor
  · obtain ⟨top, k, hrun, hfour⟩ := run_deep tidy (by decide +kernel)
    obtain ⟨top', k', hrun', -⟩ := run_deep cluttered (by decide +kernel)
    exact ⟨top, top', k, k', hrun, hrun', hfour,
      (storage_decides_nothing deep).1 _ _ _ _ _ _ _ _ _ tidy_alike_cluttered hrun hrun'⟩
  · obtain ⟨pass, j, tally, k, htaken, hclose, htwo⟩ :=
      hasTaken_deep [(⟨0, 1⟩, 0), (⟨0, 1⟩, 1)] (by decide +kernel)
    obtain ⟨pass', j', tally', k', htaken', hclose', -⟩ :=
      hasTaken_deep [(⟨0, 1⟩, 1), (⟨0, 1⟩, 0), (⟨0, 1⟩, 1)] (by decide +kernel)
    exact ⟨pass, pass', tally, tally', j, j', k, k', htaken, htaken', hclose, hclose', htwo,
      (storage_decides_nothing deep).2 _ _ _ _ _ _ _ _ _ _ _ htaken htaken'
        (by simp) hclose hclose'⟩

end Ascent

end Lineage
