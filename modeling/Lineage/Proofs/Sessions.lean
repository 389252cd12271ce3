import Lineage.Pass
import Lineage.Proofs.Steps

/-!
# Sessions with a pass

A caller presents hits to a pass, one after the other, and then ends it.  What became of a hit does
not keep the caller from going on, so a session tells all answers and faults, and what the journal
holds in the end.

## Main statements

- `Pass.session_none`: a session with a degraded pass;
- `Pass.session_resilient`: sessions do not depend on whether faults are masked.
-/

namespace Lineage

/-- What comes of a session with a pass. -/
structure Session where
  /-- What came of each hit. -/
  taken : List (Except Fault Unit)
  ending : Except Fault (Tally Bucket)
  journal : Journal

namespace Pass

/-- Take hits one after the other, whatever comes of them, and end the pass. -/
def session (pass : Pass) : List (Doc × Bucket) → Journal → Session
  | [], j => ⟨[], pass.close.result j, pass.close.after j⟩
  | (hit, b) :: hits, j =>
    let left := (take hit b).after (pass, j)
    let rest := left.1.session hits left.2
    { rest with taken := (take hit b).result (pass, j) :: rest.taken }

/-- Take hits one after the other, whatever comes of them. -/
def takeEach (hits : List (Doc × Bucket)) (x : Pass × Journal) : Pass × Journal :=
  hits.foldl (fun x hit => (take hit.1 hit.2).after x) x

variable {s : Settings} {p : Partition}

/-! ## §1 Taking a hit -/

/-- A degraded pass takes every hit and leaves everything as it is. -/
theorem take_none (hit : Doc) (b : Bucket) (j : Journal) :
    take hit b (⟨s, none⟩, j) = .ok () (⟨s, none⟩, j) := rfl

theorem result_take (hit : Doc) (b : Bucket) (g : Gatherer) (j : Journal) :
    (take hit b).result (⟨s, some (p, g)⟩, j) = (Gatherer.take s p hit b).result (g, j) :=
  Step.result_inside (s := (⟨s, some (p, g)⟩, j))

theorem after_take (hit : Doc) (b : Bucket) (g : Gatherer) (j : Journal) :
    (take hit b).after (⟨s, some (p, g)⟩, j) =
      (⟨s, some (p, ((Gatherer.take s p hit b).after (g, j)).1)⟩,
        ((Gatherer.take s p hit b).after (g, j)).2) :=
  Step.after_inside (s := (⟨s, some (p, g)⟩, j))

/-! ## §2 Sessions -/

/-- What a session leaves is what the end of the pass leaves after all hits. -/
theorem journal_session (pass : Pass) (hits : List (Doc × Bucket)) (j : Journal) :
    (pass.session hits j).journal =
      (takeEach hits (pass, j)).1.close.after (takeEach hits (pass, j)).2 := by
  induction hits generalizing pass j with
  | nil => rfl
  | cons entry hits ih => exact ih _ _

/-- A degraded pass takes all hits, counts nothing and leaves the journal as it is. -/
theorem session_none (hits : List (Doc × Bucket)) (j : Journal) :
    (⟨s, none⟩ : Pass).session hits j = ⟨hits.map fun _ => .ok (), .ok .empty, j⟩ := by
  -- the pass is the same after each of the hits
  induction hits with
  | nil => rfl
  | cons entry hits ih =>
    rw [session, Step.after_of_ok (take_none ..), Step.result_of_ok (take_none ..), ih,
      List.map_cons]

/-- Once a pass has started, it does not matter whether faults are masked. -/
theorem session_resilient (s : Settings) (resilient : Bool)
    (active : Option (Partition × Gatherer)) (hits : List (Doc × Bucket)) (j : Journal) :
    (⟨{ s with resilient }, active⟩ : Pass).session hits j =
      (⟨s, active⟩ : Pass).session hits j := by
  cases active with
  | none => rw [session_none, session_none]
  | some running =>
    obtain ⟨p, g⟩ := running
    -- taking a hit never asks whether faults are masked
    induction hits generalizing g j with
    | nil => rfl
    | cons entry hits ih =>
      have htake : Gatherer.take { s with resilient } p entry.1 entry.2 =
        Gatherer.take s p entry.1 entry.2 := rfl
      rw [session, session, result_take, result_take, after_take, after_take, htake, ih]

end Pass

end Lineage
