import Lineage.Proofs.Steps

/-!
# The conduct of steps

A step heeds an invariant if it keeps it whether it answers or fails, and if it fails, then only
with faults that it may have.  Steps that are put together from such steps are such steps again, so
a whole run can be followed part by part, without a word on what it computes.

## Main statements

- `Step.HeedsAt.bind`, `Step.heeds_forM`: sequences and loops;
- `Step.HeedsAt.inside`: steps on a part of the state.
-/

namespace Lineage.Step

variable {σ τ α β : Type} {I : σ → Prop} {may : Fault → Prop}

/-- From a state, a step leaves the invariant intact and has no fault but those it may have. -/
structure HeedsAt (I : σ → Prop) (may : Fault → Prop) (x : Step σ α) (s : σ) : Prop where
  after : I (x.after s)
  faults : ∀ fault, x.result s = .error fault → may fault

/-- A step heeds an invariant from all states that have it. -/
def Heeds (I : σ → Prop) (may : Fault → Prop) (x : Step σ α) : Prop := ∀ s, I s → HeedsAt I may x s

/-! ## §1 Single steps -/

theorem heedsAt_of_ok {x : Step σ α} {s t : σ} {a : α} (h : x s = .ok a t) (ht : I t) :
    HeedsAt I may x s where
  after := by rwa [after_of_ok h]
  faults fault hfault := by
    rw [result_of_ok h] at hfault
    cases hfault

theorem heedsAt_of_error {x : Step σ α} {s t : σ} {fault : Fault} (h : x s = .error fault t)
    (ht : I t) (hmay : may fault) : HeedsAt I may x s where
  after := by rwa [after_of_error h]
  faults fault' hfault := by
    rw [result_of_error h] at hfault
    cases hfault
    exact hmay

/-- What a step does is all that counts. -/
theorem HeedsAt.congr {x y : Step σ α} {s t : σ} (hy : HeedsAt I may y t) (h : x s = y t) :
    HeedsAt I may x s := by
  -- both come to the same, whether that is an answer or a fault
  cases hstep : y t with
  | ok a r =>
    exact heedsAt_of_ok (h.trans hstep) (after_of_ok hstep ▸ hy.after)
  | error fault r =>
    exact heedsAt_of_error (h.trans hstep) (after_of_error hstep ▸ hy.after)
      (hy.faults fault (result_of_error hstep))

/-- Nothing is asked of a step where everything is allowed. -/
theorem heedsAt_of_any {x : Step σ α} {s : σ} : HeedsAt (fun _ => True) (fun _ => True) x s where
  after := trivial
  faults _ _ := trivial

theorem heeds_pure (a : α) : Heeds I may (pure a) := fun _ hs => heedsAt_of_ok rfl hs

theorem heeds_get : Heeds I may get := fun _ hs => heedsAt_of_ok rfl hs

theorem heeds_modify {f : σ → σ} (h : ∀ s, I s → I (f s)) : Heeds I may (modify f) := fun s hs =>
  heedsAt_of_ok rfl (h s hs)

theorem heeds_fail {fault : Fault} (h : may fault) : Heeds I may (fail fault : Step σ α) :=
  fun _ hs => heedsAt_of_error rfl hs h

theorem heeds_ofExcept {r : Except Fault α} (h : ∀ fault, r = .error fault → may fault) :
    Heeds I may (ofExcept r) := by
  cases r with
  | ok a => exact heeds_pure a
  | error fault => exact heeds_fail (h fault rfl)

/-! ## §2 Sequences and loops -/

theorem HeedsAt.bind {x : Step σ α} {f : α → Step σ β} {s : σ} (hx : HeedsAt I may x s)
    (hf : ∀ a t, x s = .ok a t → I t → HeedsAt I may (f a) t) : HeedsAt I may (x >>= f) s := by
  -- the second step is taken from where the first one has answered, or not at all
  cases hstep : x s with
  | ok a t =>
    exact (hf a t hstep (after_of_ok hstep ▸ hx.after)).congr (bind_of_ok hstep)
  | error fault t =>
    exact heedsAt_of_error (bind_of_error hstep) (after_of_error hstep ▸ hx.after)
      (hx.faults fault (result_of_error hstep))

theorem Heeds.bind {x : Step σ α} {f : α → Step σ β} (hx : Heeds I may x)
    (hf : ∀ a, Heeds I may (f a)) : Heeds I may (x >>= f) := fun s hs =>
  (hx s hs).bind fun a t _ ht => hf a t ht

/-- Reading the state first. -/
theorem heeds_get_bind {f : σ → Step σ β} (h : ∀ s, I s → HeedsAt I may (f s) s) :
    Heeds I may (get >>= f) := fun s hs => (h s hs).congr rfl

theorem Heeds.discard {x : Step σ α} (h : Heeds I may x) : Heeds I may (discard x) := by
  rw [discard_eq_bind]
  exact h.bind fun _ => heeds_pure ()

theorem heeds_forM {f : α → Step σ Unit} {xs : List α} (h : ∀ x ∈ xs, Heeds I may (f x)) :
    Heeds I may (xs.forM f) := by
  -- one step after the other, up to the first that fails
  induction xs with
  | nil => exact heeds_pure ()
  | cons x xs ih =>
    have hrest := ih fun y hy => h y (List.mem_cons_of_mem _ hy)
    exact (h x List.mem_cons_self).bind fun _ => hrest

theorem heeds_mapM {f : α → Step σ β} {xs : List α} (h : ∀ x ∈ xs, Heeds I may (f x)) :
    Heeds I may (xs.mapM f) := by
  induction xs with
  | nil => exact heeds_pure []
  | cons x xs ih =>
    rw [List.mapM_cons]
    have hrest := ih fun y hy => h y (List.mem_cons_of_mem _ hy)
    exact (h x List.mem_cons_self).bind fun _ => hrest.bind fun _ => heeds_pure _

/-! ## §3 Parts of the state -/

/-- A step on a part of the state. -/
theorem HeedsAt.inside {J : τ → Prop} {may' : Fault → Prop} {step : Step τ α} {part : τ}
    {put : τ → σ} {s : σ} (h : HeedsAt J may' step part) (hput : ∀ part, J part → I (put part))
    (hmay : ∀ fault, may' fault → may fault) : HeedsAt I may (step.inside part put) s where
  after := by
    rw [after_inside]
    exact hput _ h.after
  faults fault hfault := by
    rw [result_inside] at hfault
    exact hmay fault (h.faults fault hfault)

end Lineage.Step
