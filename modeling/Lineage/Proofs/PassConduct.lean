import Lineage.Pass
import Lineage.Proofs.Conduct
import Lineage.Proofs.LinkTable.Refusals
import Lineage.Proofs.Taking

/-!
# The conduct of hits and visits

Whatever a pass does comes down to a few operations: it writes into tables of its own, it asks for
keys, it hands pairs on, and it counts.  An invariant that these keep, be they refused or not, is
kept while a hit is taken and while an ancestor is visited.  So what is to be said of whole passes
only has to be said of these operations.

## Main statements

- `Gatherer.Conducts.take`: invariants of gatherers and journals, over one hit;
- `Transition.heeds_visit_of`, `Transition.Spreads.spread`: invariants of transitions, over one
  visit.
-/

namespace Lineage

open Step

variable {may : Fault → Prop}

theorem Sightings.heeds_insert (b : Bucket) (doc : Doc) :
    Heeds (fun _ => True) Outgrown (insert b doc) :=
  heeds_get_bind fun _ _ =>
    (LinkTable.heeds_insert _ _ _ trivial).inside (fun _ _ => trivial) fun _ h => h

theorem Visits.heeds_forEach {σ : Type} {I : σ → Prop} {v : Visits} {visit : Doc → Step σ Unit}
    (hvisit : ∀ doc, Heeds I may (visit doc))
    (hending : ∀ fault, v.ending = .error fault → may fault) : Heeds I may (v.forEach visit) :=
  (heeds_forM fun doc _ => hvisit doc).bind fun _ => heeds_ofExcept hending

/-! ## §1 Taking a hit -/

namespace Gatherer

variable {I : Gatherer × Journal → Prop} {s : Settings} {p : Partition}

theorem heedsAt_handOn {b : Bucket} {doc : Doc} {g : Gatherer} {j : Journal}
    (h : HeedsAt (fun k => I (g, k)) may
      (Journal.handOn ⟨b, doc⟩ >>= fun _ => Journal.count (·.addForwarded 1)) j) :
    HeedsAt I may (handOn b doc) (g, j) := by
  refine HeedsAt.congr ?_ (handOn_apply b doc g j)
  exact h.inside (fun _ hk => hk) fun _ hfault => hfault

theorem heedsAt_ownKeys {doc : Doc} {g : Gatherer} {j : Journal}
    (hask : HeedsAt (fun k => I (g, k)) may (Journal.ask (.keys 0 doc)) j)
    (hkeys : ∀ fault, p.keys 0 doc = .error fault → may fault) :
    HeedsAt I may (ownKeys p doc) (g, j) := by
  have hasked : HeedsAt I may (Step.inside j (fun k => (g, k)) (Journal.ask (.keys 0 doc)))
      (g, j) := hask.inside (fun _ hk => hk) fun _ hfault => hfault
  -- asking comes first, and reading the keys is all that can fail
  have hanswered : HeedsAt I may (Step.inside j (fun k => (g, k)) (Journal.ask (.keys 0 doc)) >>=
      fun _ => Step.ofExcept (p.keys 0 doc)) (g, j) :=
    hasked.bind fun _ x _ hx => heeds_ofExcept hkeys x hx
  exact hanswered.congr rfl

/-- An invariant that the parts of a hit keep, with the faults that they may have. -/
structure Conducts (p : Partition) (I : Gatherer × Journal → Prop) (may : Fault → Prop) : Prop where
  /-- What the gatherer remembers is its own affair, but it does not turn to links. -/
  own : ∀ g g' j, I (g, j) →
    (∀ table, g'.facts = .links table → ∃ table, g.facts = .links table) → I (g', j)
  outgrown : ∀ fault, Outgrown fault → may fault
  handOn : ∀ b doc, Heeds I may (handOn b doc)
  /-- Keys are only asked for where there are links. -/
  ownKeys : ∀ doc g j table, g.facts = .links table → I (g, j) →
    HeedsAt I may (ownKeys p doc) (g, j)

variable (h : Conducts p I may)
include h

theorem Conducts.note {seen : Sightings} {put : Sightings → Gatherer} {wanted : Prop}
    [Decidable wanted] {b : Bucket} {doc : Doc} {g : Gatherer} {j : Journal}
    (hput : ∀ seen, I (put seen, j)) : HeedsAt I may (note seen put wanted b doc j) (g, j) := by
  -- the memory belongs to the gatherer, so growing it is its own affair
  have hinsert : HeedsAt I may
      (Step.inside seen (fun seen => (put seen, j)) (Sightings.insert b doc)) (g, j) :=
    (Sightings.heeds_insert b doc seen trivial).inside (fun seen _ => hput seen) h.outgrown
  apply hinsert.bind
  intro fresh x _ hx
  split
  case isTrue => exact h.handOn b doc x hx
  case isFalse => exact heeds_pure () x hx

theorem Conducts.forwardHit (b : Bucket) (hit : Doc) : Heeds I may (forwardHit b hit) := by
  rintro ⟨g, j⟩ hx
  by_cases hidle : ∀ seen, g.forwarding ≠ .hits seen
  · exact heedsAt_of_ok (forwardHit_of_ne hidle b hit j) hx
  · obtain ⟨seen, hseen⟩ := not_forall_not.1 hidle
    refine (h.note fun seen => ?_).congr (forwardHit_of_hits hseen b hit j)
    exact h.own g _ j hx fun table hlinks => ⟨table, hlinks⟩

theorem Conducts.sightRecent (b : Bucket) (doc : Doc) : Heeds I may (sightRecent b doc) := by
  rintro ⟨g, j⟩ hx
  exact heedsAt_of_ok rfl (h.own g _ j hx fun table hlinks => ⟨table, hlinks⟩)

theorem Conducts.link (b : Bucket) (o : Ordinal) : Heeds I may (link b o) := by
  rintro ⟨g, j⟩ hx
  cases hfacts : g.facts with
  | documents seen => exact heedsAt_of_ok (link_of_documents hfacts b o j) hx
  | links table =>
    refine HeedsAt.congr ?_ (link_of_links hfacts b o j)
    -- facts that were links before are links afterwards
    have hinsert : Heeds I may (Step.inside table
        (fun table => ({ g with facts := .links table }, j)) (LinkTable.insert b o)) := fun _ _ =>
      (LinkTable.heeds_insert b o table trivial).inside
        (fun _ _ => h.own g _ j hx fun _ _ => ⟨table, hfacts⟩) h.outgrown
    exact hinsert.discard _ hx

theorem Conducts.enter (b : Bucket) (doc : Doc) : Heeds I may (enter p b doc) := by
  rintro ⟨g, j⟩ hx
  cases hfacts : g.facts with
  | documents seen =>
    refine (h.note fun seen => ?_).congr (enter_of_documents hfacts b doc j)
    apply h.own g _ j hx
    intro table hlinks
    cases hlinks
  | links table =>
    refine HeedsAt.congr ?_ (enter_of_links hfacts b doc j)
    apply (h.ownKeys doc g j table hfacts hx).bind
    intro keys x _ hx
    exact heeds_forM (fun o _ => h.link b o) x hx

/-- What the parts of a hit keep is kept while the hit is taken. -/
theorem Conducts.take (hit : Doc) (b : Bucket) : Heeds I may (take s p hit b) := by
  -- counting the hit comes before all else and touches nothing but the count
  have hcount : Heeds I may (modify fun x => ({ x.1 with hits := x.1.hits + 1 }, x.2)) :=
    heeds_modify fun x hx => h.own x.1 _ x.2 hx fun table hlinks => ⟨table, hlinks⟩
  refine hcount.bind fun _ => (h.forwardHit b hit).bind fun _ => ?_
  split
  case h_1 => exact heeds_pure ()
  case h_2 doc _ =>
    refine (h.sightRecent b doc).bind fun fresh => ?_
    split
    case isTrue => exact h.enter b doc
    case isFalse => exact heeds_pure ()

end Gatherer

/-! ## §2 Visiting an ancestor -/

namespace Transition

variable {I : Transition → Prop} {p : Partition} {handingOn : Bool} {rows : List WordSet}
  {level : Level}

theorem heeds_onReached {J : LinkTable → Prop} {may' : Fault → Prop} {α : Type}
    {step : Step LinkTable α} (hstep : Heeds J may' step) (hpart : ∀ t, I t → J t.reached)
    (hput : ∀ t reached, I t → J reached → I { t with reached })
    (hmay : ∀ fault, may' fault → may fault) : Heeds I may (onReached step) :=
  heeds_get_bind fun t ht =>
    (hstep t.reached (hpart t ht)).inside (fun reached hr => hput t reached ht hr) hmay

theorem heeds_onJournal {J : Journal → Prop} {α : Type} {step : Step Journal α}
    (hstep : Heeds J may step) (hpart : ∀ t, I t → J t.journal)
    (hput : ∀ t journal, I t → J journal → I { t with journal }) :
    Heeds I may (onJournal step) :=
  heeds_get_bind fun t ht =>
    (hstep t.journal (hpart t ht)).inside (fun journal hj => hput t journal ht hj) fun _ h => h

/-- An invariant that the parts of spreading `rows` keep, with the faults that they may have. -/
structure Spreads (handingOn : Bool) (rows : List WordSet) (I : Transition → Prop)
    (may : Fault → Prop) : Prop where
  insert : handingOn = true → ∀ o b, Heeds I may (onReached (LinkTable.insert o b))
  /-- A pair is handed on and counted in one go. -/
  handOn : handingOn = true → ∀ pair, Heeds I may (onJournal (Journal.handOn pair) >>= fun _ =>
    modify fun t => { t with handedOn := t.handedOn + 1 })
  addRow : handingOn = false → ∀ row ∈ rows, ∀ o, Heeds I may (onReached (LinkTable.addRow o row))

theorem Spreads.markAndHandOn (h : Spreads true rows I may) (doc : Doc)
    (links : List (Ordinal × Bucket)) (served : List Bucket) :
    Heeds I may (markAndHandOn doc links served) := by
  -- the induction is on the links still to mark; the buckets served grow on the way
  induction links generalizing served with
  | nil => exact heeds_pure ()
  | cons link links ih =>
    refine (h.insert rfl link.1 link.2).bind fun fresh => ?_
    split
    case isTrue =>
      rw [← bind_assoc]
      exact (h.handOn rfl _).bind fun _ => ih _
    case isFalse => exact ih served

theorem Spreads.spread (h : Spreads handingOn rows I may) (doc : Doc) (ordinals : List Ordinal) :
    Heeds I may (spread handingOn doc rows ordinals) := by
  cases handingOn with
  | true => exact h.markAndHandOn doc _ []
  -- without handing on, each ordinal takes over whole rows
  | false =>
    refine heeds_forM fun entry hentry => ?_
    obtain ⟨row, hrow, hmap⟩ := List.mem_flatMap.1 hentry
    obtain ⟨o, -, rfl⟩ := List.mem_map.1 hmap
    exact h.addRow rfl row hrow o

/-- Without rows nothing is spread. -/
theorem spread_nil (handingOn : Bool) (doc : Doc) (ordinals : List Ordinal) :
    spread handingOn doc [] ordinals = pure () := by
  cases handingOn <;> rfl

theorem heeds_keysOf {doc : Doc} (hask : Heeds I may (onJournal (Journal.ask (.keys level doc))))
    (hkeys : ∀ fault, p.keys level doc = .error fault → may fault) :
    Heeds I may (keysOf p level doc) :=
  hask.bind fun _ => heeds_ofExcept hkeys

/-- A visit asks for keys at the two levels and spreads rows of the table below. -/
theorem heeds_visit_of {below : LinkTable} {doc : Doc} (hlower : Heeds I may (keysOf p level doc))
    (hupper : Heeds I may (keysOf p (level + 1) doc))
    (hspread : ∀ lower upper : List Ordinal, Heeds I may
      (spread handingOn doc ((ascending lower).filterMap below.row?) (ascending upper))) :
    Heeds I may (visit handingOn p level below doc) := by
  -- without rows below, the visit ends after the first question; without ordinals, after the second
  refine hlower.bind fun lower => ?_
  split
  case isTrue => exact heeds_pure ()
  case isFalse =>
    refine hupper.bind fun upper => ?_
    split
    case isTrue => exact heeds_pure ()
    case isFalse => exact hspread lower upper

end Transition

end Lineage
