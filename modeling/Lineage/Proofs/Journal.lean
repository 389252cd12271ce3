import Lineage.Journal
import Lineage.Proofs.Steps

/-!
# Steps of journals and sinks

What a journal and its sink hold after a question, a count or an offer.  Only an offer changes the
sink; a sink that answers has taken the pair it was offered.  A sink that refuses has been offered
the pair all the same.
-/

namespace Lineage

/-! ## §1 Sinks -/

/-- A sink has been offered some pairs and has taken some of these. -/
structure Sink.Moves (s t : Sink) (offers pairs : List Handoff) : Prop where
  offered : t.offered.toList = s.offered.toList ++ offers
  taken : t.taken.toList = s.taken.toList ++ pairs
  sublist : pairs.Sublist offers

theorem Sink.Moves.refl (s : Sink) : s.Moves s [] [] where
  offered := by simp
  taken := by simp
  sublist := .refl _

theorem Sink.Moves.trans {s t u : Sink} {offers pairs offers' pairs' : List Handoff}
    (h : s.Moves t offers pairs) (h' : t.Moves u offers' pairs') :
    s.Moves u (offers ++ offers') (pairs ++ pairs') where
  offered := by rw [h'.offered, h.offered, List.append_assoc]
  taken := by rw [h'.taken, h.taken, List.append_assoc]
  sublist := h.sublist.append h'.sublist

/-- A sink may or may not take what it is offered. -/
theorem Sink.moves_after_offer (pair : Handoff) (s : Sink) :
    ∃ pairs, s.Moves ((offer pair).after s) [pair] pairs := by
  unfold offer
  rw [Step.after_get_bind]
  cases s.verdict s.offered pair with
  | none => exact ⟨[pair], by simp [Step.after_set], by simp [Step.after_set], .refl _⟩
  -- the refusal comes after the pair has been put among those that were offered
  | some fault =>
    have hrefused : (set { s with offered := s.offered.push pair } >>= fun _ : PUnit =>
        (Step.fail fault : Step Sink Unit)).after s =
          { s with offered := s.offered.push pair } := rfl
    exact ⟨[], by simp [hrefused], by simp [hrefused], List.nil_sublist _⟩

theorem Sink.offer_eq_ok {pair : Handoff} {s t : Sink} {a : Unit} (h : offer pair s = .ok a t) :
    t = { s with offered := s.offered.push pair, taken := s.taken.push pair } := by
  obtain ⟨r, r', hget, hrest⟩ := Step.bind_eq_ok.1 h
  obtain ⟨rfl, rfl⟩ := Step.get_eq_ok.1 hget
  cases hverdict : s.verdict s.offered pair with
  | none =>
    simp only [hverdict] at hrest
    exact (Step.set_eq_ok.1 hrest).symm
  | some fault =>
    simp only [hverdict] at hrest
    obtain ⟨⟨⟩, v, -, hfail⟩ := Step.bind_eq_ok.1 hrest
    simp at hfail

/-- A sink that refuses a pair has been offered it, and has not taken it. -/
theorem Sink.offer_eq_error {pair : Handoff} {s t : Sink} {fault : Fault}
    (h : offer pair s = .error fault t) : t = { s with offered := s.offered.push pair } := by
  unfold offer at h
  -- reading the state cannot fail, so the fault is the sink's
  rcases Step.bind_eq_error.1 h with hget | ⟨r, r', hget, hrest⟩
  · cases hget
  · obtain ⟨rfl, rfl⟩ := Step.get_eq_ok.1 hget
    cases hverdict : s.verdict s.offered pair with
    | none =>
      simp only [hverdict] at hrest
      cases hrest
    | some refusal =>
      simp only [hverdict] at hrest
      cases hrest
      rfl

/-! ## §2 Journals -/

namespace Journal

theorem moves_after_handOn (pair : Handoff) (j : Journal) :
    ∃ pairs, j.sink.Moves ((handOn pair).after j).sink [pair] pairs := by
  unfold handOn
  rw [Step.after_get_bind, Step.after_inside]
  exact Sink.moves_after_offer pair j.sink

theorem handOn_eq_ok {pair : Handoff} {j k : Journal} {a : Unit} (h : handOn pair j = .ok a k) :
    k = { j with sink := { j.sink with
      offered := j.sink.offered.push pair, taken := j.sink.taken.push pair } } := by
  obtain ⟨r, r', hget, hoffer⟩ := Step.bind_eq_ok.1 h
  obtain ⟨rfl, rfl⟩ := Step.get_eq_ok.1 hget
  obtain ⟨sink, hsink, rfl⟩ := Step.inside_eq_ok.1 hoffer
  rw [Sink.offer_eq_ok hsink]

theorem handOn_eq_error {pair : Handoff} {j k : Journal} {fault : Fault}
    (h : handOn pair j = .error fault k) :
    k = { j with sink := { j.sink with offered := j.sink.offered.push pair } } := by
  have hinside : Step.inside j.sink (fun sink => { j with sink }) (Sink.offer pair) j =
      .error fault k := h
  obtain ⟨sink, hrefused, rfl⟩ := Step.inside_eq_error.1 hinside
  rw [Sink.offer_eq_error hrefused]

theorem ask_eq_ok {request : Request} {j k : Journal} {a : Unit} (h : ask request j = .ok a k) :
    k = { j with requests := j.requests.push request } :=
  (Step.modify_eq_ok.1 h).symm

theorem count_eq_ok {change : Statistics → Statistics} {j k : Journal} {a : Unit}
    (h : count change j = .ok a k) : k = { j with statistics := change j.statistics } :=
  (Step.modify_eq_ok.1 h).symm

end Journal

end Lineage
