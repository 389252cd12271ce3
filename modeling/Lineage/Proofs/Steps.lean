import Lineage.Step
import Mathlib.Data.List.Forall2

/-!
# Steps that succeed and runs of steps

Inversion lemmas for steps: what a step that answers has done before.  A run of steps over a list
is reasoned about once, by induction on what is still to do:

- `forM_induction`: a fact that holds at the start and is carried over every element holds at the
  end of a run that succeeds;
- `after_forM_induction`: the same for runs that may break off;
- `forM_eq_error`: where a run breaks off.
-/

namespace Lineage.Step

variable {σ τ α β : Type}

/-! ## §1 Inversion of single steps -/

/-- A sequence of two steps answers exactly when both do. -/
theorem bind_eq_ok {x : Step σ α} {f : α → Step σ β} {s t : σ} {b : β} :
    (x >>= f) s = .ok b t ↔ ∃ a r, x s = .ok a r ∧ f a r = .ok b t := by
  change EStateM.bind x f s = .ok b t ↔ _
  unfold EStateM.bind
  cases x s <;> simp [and_assoc]

theorem bind_of_ok {x : Step σ α} {f : α → Step σ β} {s r : σ} {a : α} (h : x s = .ok a r) :
    (x >>= f) s = f a r := by
  change EStateM.bind x f s = _
  simp only [EStateM.bind, h]

theorem bind_of_error {x : Step σ α} {f : α → Step σ β} {s r : σ} {fault : Fault}
    (h : x s = .error fault r) : (x >>= f) s = .error fault r := by
  change EStateM.bind x f s = _
  simp only [EStateM.bind, h]

/-- A sequence of two steps fails where one of them does. -/
theorem bind_eq_error {x : Step σ α} {f : α → Step σ β} {s t : σ} {fault : Fault} :
    (x >>= f) s = .error fault t ↔
      x s = .error fault t ∨ ∃ a r, x s = .ok a r ∧ f a r = .error fault t := by
  change EStateM.bind x f s = .error fault t ↔ _
  unfold EStateM.bind
  cases x s <;> simp [and_assoc]

@[simp] theorem pure_eq_ok {a b : α} {s t : σ} :
    (pure a : Step σ α) s = .ok b t ↔ a = b ∧ s = t := by
  change EStateM.Result.ok a s = .ok b t ↔ _
  simp

@[simp] theorem get_eq_ok {s r t : σ} : (get : Step σ σ) s = .ok r t ↔ s = r ∧ s = t := by
  change EStateM.Result.ok s s = .ok r t ↔ _
  simp

@[simp] theorem set_eq_ok {r s t : σ} {u : Unit} : (set r : Step σ Unit) s = .ok u t ↔ r = t := by
  change EStateM.Result.ok () r = .ok u t ↔ _
  simp

@[simp] theorem modify_eq_ok {f : σ → σ} {s t : σ} {u : Unit} :
    (modify f : Step σ Unit) s = .ok u t ↔ f s = t := by
  change EStateM.Result.ok () (f s) = .ok u t ↔ _
  simp

@[simp] theorem fail_apply (fault : Fault) (s : σ) : (fail fault : Step σ α) s = .error fault s :=
  rfl

@[simp] theorem ofExcept_eq_ok {r : Except Fault α} {a : α} {s t : σ} :
    ofExcept r s = .ok a t ↔ r = .ok a ∧ s = t := by
  cases r with
  | ok b => simp [ofExcept]
  | error fault => simp [ofExcept]

/-- A step on a part answers exactly when it does on the part alone. -/
theorem inside_eq_ok {part : σ} {put : σ → τ} {step : Step σ α} {s t : τ} {a : α} :
    inside part put step s = .ok a t ↔ ∃ part', step part = .ok a part' ∧ put part' = t := by
  unfold inside
  cases step part <;> simp [and_assoc]

theorem inside_eq_error {part : σ} {put : σ → τ} {step : Step σ α} {s t : τ} {fault : Fault} :
    inside part put step s = .error fault t ↔
      ∃ part', step part = .error fault part' ∧ put part' = t := by
  unfold inside
  cases step part <;> simp [and_assoc]

theorem discard_eq_bind (x : Step σ α) : (discard x : Step σ Unit) = x >>= fun _ => pure () := by
  funext s
  change EStateM.map (fun _ => ()) x s = EStateM.bind x (fun _ => pure ()) s
  unfold EStateM.map EStateM.bind
  cases x s <;> rfl

theorem discard_eq_ok {x : Step σ α} {s t : σ} {u : Unit} :
    (discard x : Step σ Unit) s = .ok u t ↔ ∃ a, x s = .ok a t := by
  change EStateM.map (fun _ => ()) x s = .ok u t ↔ _
  unfold EStateM.map
  cases x s <;> simp

theorem after_of_ok {x : Step σ α} {s t : σ} {a : α} (h : x s = .ok a t) : x.after s = t := by
  simp only [after, h]

theorem after_of_error {x : Step σ α} {s t : σ} {fault : Fault} (h : x s = .error fault t) :
    x.after s = t := by
  simp only [after, h]

theorem result_of_ok {x : Step σ α} {s t : σ} {a : α} (h : x s = .ok a t) :
    x.result s = .ok a := by
  simp only [result, h]

theorem result_of_error {x : Step σ α} {s t : σ} {fault : Fault} (h : x s = .error fault t) :
    x.result s = .error fault := by
  simp only [result, h]

theorem after_congr {x y : Step σ α} {s t : σ} (h : x s = y t) : x.after s = y.after t := by
  unfold after
  rw [h]

/-- Reading the state changes nothing, so what a sequence leaves is what its second step leaves. -/
theorem after_get_bind {f : σ → Step σ β} {s : σ} : (get >>= f).after s = (f s).after s := rfl

theorem after_set {r s : σ} : (set r : Step σ PUnit).after s = r := rfl

theorem after_bind_of_ok {x : Step σ α} {f : α → Step σ β} {s r : σ} {a : α} (h : x s = .ok a r) :
    (x >>= f).after s = (f a).after r := by
  unfold after
  rw [bind_of_ok h]

theorem after_bind_of_error {x : Step σ α} {f : α → Step σ β} {s r : σ} {fault : Fault}
    (h : x s = .error fault r) : (x >>= f).after s = r := by
  unfold after
  rw [bind_of_error h]

theorem after_discard {x : Step σ α} {s : σ} : (discard x : Step σ Unit).after s = x.after s := by
  rw [discard_eq_bind]
  cases h : x s with
  | ok a r => rw [after_bind_of_ok h, after_of_ok h]; rfl
  | error fault r => rw [after_bind_of_error h, after_of_error h]

/-- What a step on a part leaves of the whole. -/
theorem after_inside {part : σ} {put : σ → τ} {step : Step σ α} {s : τ} :
    (inside part put step).after s = put (step.after part) := by
  unfold after inside
  cases step part <;> rfl

theorem result_inside {part : σ} {put : σ → τ} {step : Step σ α} {s : τ} :
    (inside part put step).result s = step.result part := by
  unfold result inside
  cases step part <;> rfl

/-- Carrying out a step whether or not it fails always answers. -/
theorem attempt_eq_ok {x : Step σ α} {s t : σ} {r : Except Fault α} :
    attempt x s = .ok r t ↔ x.result s = r ∧ x.after s = t := by
  unfold attempt result after
  cases x s <;> simp

theorem result_eq_ok {x : Step σ α} {s : σ} {a : α} :
    x.result s = .ok a ↔ x s = .ok a (x.after s) := by
  unfold result after
  cases x s <;> simp

theorem result_eq_error {x : Step σ α} {s : σ} {fault : Fault} :
    x.result s = .error fault ↔ x s = .error fault (x.after s) := by
  unfold result after
  cases x s <;> simp

theorem isOk_eq_true_iff {x : Except Fault α} : x.isOk = true ↔ ∃ a, x = .ok a := by
  cases x <;> simp [Except.isOk, Except.toBool]

theorem isOk_eq_false_iff {x : Except Fault α} : x.isOk = false ↔ ∃ fault, x = .error fault := by
  cases x <;> simp [Except.isOk, Except.toBool]

/-- A step whose result is an answer leaves what it leaves with that answer. -/
theorem exists_of_isOk {x : Step σ α} {s : σ} (h : (x.result s).isOk = true) :
    ∃ a, x s = .ok a (x.after s) := by
  obtain ⟨a, ha⟩ := isOk_eq_true_iff.1 h
  exact ⟨a, result_eq_ok.1 ha⟩

/-! ## §2 Steps that do answer -/

/-- A step answers from a state, and what it leaves has a property.  To look for a function type
behind this would be to carry out the step. -/
@[irreducible] def Answers (x : Step σ α) (s : σ) (P : α → σ → Prop) : Prop :=
  match x s with
  | .ok a t => P a t
  | .error _ _ => False

instance (x : Step σ α) (s : σ) (P : α → σ → Prop) [∀ a t, Decidable (P a t)] :
    Decidable (x.Answers s P) :=
  match h : x s with
  | .ok a t => decidable_of_iff (P a t) (by rw [Answers, h])
  | .error _ _ => .isFalse (by rw [Answers, h]; exact id)

theorem answers_iff {x : Step σ α} {s : σ} {P : α → σ → Prop} :
    x.Answers s P ↔ ∃ a t, x s = .ok a t ∧ P a t := by
  unfold Answers
  cases x s <;> simp [and_assoc]

/-! ## §3 Runs over a list -/

/-- A run that succeeds carries along whatever each of its steps carries along.  The fact may speak
of the elements done so far. -/
theorem forM_induction {f : α → Step σ Unit} (I : List α → σ → Prop) {xs : List α} {s t : σ}
    {u : Unit} (start : I [] s)
    (carry : ∀ done x rest s t, xs = done ++ x :: rest → I done s → f x s = .ok () t →
      I (done ++ [x]) t)
    (run : xs.forM f s = .ok u t) : I xs t := by
  -- the induction is on what is still to do; what is done grows
  have go : ∀ todo done s, xs = done ++ todo → I done s → todo.forM f s = .ok u t → I xs t := by
    intro todo
    induction todo with
    | nil =>
      intro done s hsplit hI hrun
      obtain ⟨-, rfl⟩ := pure_eq_ok.1 hrun
      simpa [hsplit] using hI
    | cons x todo ih =>
      intro done s hsplit hI hrun
      obtain ⟨⟨⟩, r, hx, hrest⟩ := bind_eq_ok.1 hrun
      exact ih (done ++ [x]) r (by simp [hsplit]) (carry done x todo s r hsplit hI hx) hrest
  exact go xs [] s rfl start run

/-- Two runs over one list that both succeed carry along whatever their single steps carry along. -/
theorem forM_induction_both {f : α → Step σ Unit} {g : α → Step τ Unit} (R : σ → τ → Prop)
    {xs : List α} {s s' : σ} {t t' : τ} {u v : Unit} (start : R s t)
    (carry : ∀ x ∈ xs, ∀ s t s' t', R s t → f x s = .ok () s' → g x t = .ok () t' → R s' t')
    (run : xs.forM f s = .ok u s') (run' : xs.forM g t = .ok v t') : R s' t' := by
  -- the two runs are taken apart in step
  induction xs generalizing s t with
  | nil =>
    obtain ⟨-, rfl⟩ := pure_eq_ok.1 run
    obtain ⟨-, rfl⟩ := pure_eq_ok.1 run'
    exact start
  | cons x xs ih =>
    obtain ⟨⟨⟩, r, hx, hrest⟩ := bind_eq_ok.1 run
    obtain ⟨⟨⟩, r', hx', hrest'⟩ := bind_eq_ok.1 run'
    have hnext := carry x List.mem_cons_self s t r r' start hx hx'
    exact ih hnext (fun y hy => carry y (List.mem_cons_of_mem _ hy)) hrest hrest'

/-- A run fails at one of its steps, after those before it have succeeded. -/
theorem forM_eq_error {f : α → Step σ Unit} {xs : List α} {s t : σ} {fault : Fault}
    (h : xs.forM f s = .error fault t) :
    ∃ before x after r, xs = before ++ x :: after ∧ before.forM f s = .ok () r ∧
      f x r = .error fault t := by
  induction xs generalizing s with
  | nil => cases h
  | cons x xs ih =>
    -- the first step fails, or it is done and a later one does
    rcases bind_eq_error.1 h with hx | ⟨⟨⟩, r, hx, hrest⟩
    · exact ⟨[], x, xs, s, rfl, rfl, hx⟩
    · obtain ⟨before, y, after, r', rfl, hbefore, hy⟩ := ih hrest
      exact ⟨x :: before, y, after, r', rfl, bind_eq_ok.2 ⟨(), r, hx, hbefore⟩, hy⟩

/-- A run that has failed would fail in the same way if there were more to do. -/
theorem forM_append_of_error {f : α → Step σ Unit} {xs : List α} (more : List α) {s t : σ}
    {fault : Fault} (h : xs.forM f s = .error fault t) :
    (xs ++ more).forM f s = .error fault t := by
  induction xs generalizing s with
  | nil => cases h
  | cons x xs ih =>
    rcases bind_eq_error.1 h with hx | ⟨⟨⟩, r, hx, hrest⟩
    · exact bind_of_error hx
    · exact (bind_of_ok hx).trans (ih hrest)

/-- What a first step leaves when it fails, and what a second one leaves after it, is all that a
sequence of two can leave. -/
theorem after_bind {x : Step σ α} {f : α → Step σ β} (I : σ → Prop) {s : σ}
    (first : I (x.after s)) (second : ∀ a r, x s = .ok a r → I r → I ((f a).after r)) :
    I (after (x >>= f) s) := by
  unfold after at first ⊢
  -- a step that fails keeps the second one from being carried out
  cases hx : x s with
  | error fault r =>
    rw [hx] at first
    rw [bind_of_error hx]
    exact first
  | ok a r =>
    rw [hx] at first
    rw [bind_of_ok hx]
    exact second a r hx first

/-- What every step keeps, whether it answers or fails, a run keeps. -/
theorem after_forM_induction {f : α → Step σ Unit} (I : σ → Prop) {xs : List α} {s : σ}
    (start : I s) (keep : ∀ x ∈ xs, ∀ s, I s → I ((f x).after s)) : I (after (xs.forM f) s) := by
  induction xs generalizing s with
  | nil => exact start
  | cons x xs ih =>
    -- a run is its first step and then the others
    change I (after (f x >>= fun _ => xs.forM f) s)
    apply after_bind I (keep x List.mem_cons_self s start)
    intro _ r _ hr
    exact ih hr fun y hy => keep y (List.mem_cons_of_mem _ hy)

/-! ## §4 Answers collected over a list -/

/-- In two lists that go together, each entry of the second goes with one of the first. -/
theorem exists_of_mem_right {R : α → β → Prop} {xs : List α} {ys : List β}
    (h : List.Forall₂ R xs ys) {y : β} (hy : y ∈ ys) : ∃ x ∈ xs, R x y := by
  obtain ⟨i, hi, rfl⟩ := List.mem_iff_getElem.1 hy
  have hplace : i < xs.length := h.length_eq ▸ hi
  exact ⟨xs[i], List.getElem_mem hplace, h.get hplace hi⟩

/-- Collected answers are those of the single steps, in order. -/
theorem mapM_eq_ok {f : α → Step σ β} {xs : List α} {ys : List β} {s t : σ}
    (h : xs.mapM f s = .ok ys t) :
    List.Forall₂ (fun x y => ∃ r r', f x r = .ok y r') xs ys := by
  induction xs generalizing ys s t with
  | nil =>
    obtain ⟨rfl, -⟩ := pure_eq_ok.1 h
    exact .nil
  | cons x xs ih =>
    rw [List.mapM_cons] at h
    obtain ⟨y, r, hx, hrest⟩ := bind_eq_ok.1 h
    obtain ⟨ys', r', hxs, hpure⟩ := bind_eq_ok.1 hrest
    obtain ⟨rfl, -⟩ := pure_eq_ok.1 hpure
    exact .cons ⟨s, r, hx⟩ (ih hxs)

theorem except_bind_eq_ok {x : Except Fault α} {f : α → Except Fault β} {b : β} :
    (x >>= f) = .ok b ↔ ∃ a, x = .ok a ∧ f a = .ok b := by
  cases x <;> simp [bind, Except.bind]

theorem except_bind_eq_error {x : Except Fault α} {f : α → Except Fault β} {fault : Fault} :
    (x >>= f) = .error fault ↔ x = .error fault ∨ ∃ a, x = .ok a ∧ f a = .error fault := by
  cases x <;> simp [bind, Except.bind]

/-- The same for answers that depend on no state. -/
theorem forall₂_of_mapM_eq_ok {f : α → Except Fault β} {xs : List α} {ys : List β}
    (h : xs.mapM f = .ok ys) : List.Forall₂ (fun x y => f x = .ok y) xs ys := by
  induction xs generalizing ys with
  | nil =>
    cases h
    exact .nil
  | cons x xs ih =>
    rw [List.mapM_cons] at h
    obtain ⟨y, hx, hrest⟩ := except_bind_eq_ok.1 h
    obtain ⟨ys', hxs, hpure⟩ := except_bind_eq_ok.1 hrest
    cases hpure
    exact .cons hx (ih hxs)

/-- Every collected answer is the answer to one of the questions. -/
theorem exists_of_mem_mapM {f : α → Except Fault β} {xs : List α} {ys : List β}
    (h : xs.mapM f = .ok ys) {y : β} (hy : y ∈ ys) : ∃ x ∈ xs, f x = .ok y :=
  exists_of_mem_right (forall₂_of_mapM_eq_ok h) hy

/-- If the answers to a list of questions break off, one of them is the fault. -/
theorem exists_of_mapM_eq_error {f : α → Except Fault β} {xs : List α} {fault : Fault}
    (h : xs.mapM f = .error fault) : ∃ x ∈ xs, f x = .error fault := by
  induction xs with
  | nil => cases h
  | cons x xs ih =>
    rw [List.mapM_cons] at h
    -- the answers are collected in order, and putting them together cannot fail
    rcases except_bind_eq_error.1 h with hx | ⟨y, -, hrest⟩
    · exact ⟨x, List.mem_cons_self, hx⟩
    · rcases except_bind_eq_error.1 hrest with hxs | ⟨ys, -, hpure⟩
      · obtain ⟨x', hx', hfault⟩ := ih hxs
        exact ⟨x', List.mem_cons_of_mem _ hx', hfault⟩
      · cases hpure

theorem mapM_eq_ok_map {f : α → Except Fault β} {g : α → β} {xs : List α}
    (h : ∀ x ∈ xs, f x = .ok (g x)) : xs.mapM f = .ok (xs.map g) := by
  induction xs with
  | nil => rfl
  | cons x xs ih =>
    have hrest := ih fun y hy => h y (List.mem_cons_of_mem _ hy)
    rw [List.mapM_cons, h x List.mem_cons_self, hrest]
    rfl

end Lineage.Step
