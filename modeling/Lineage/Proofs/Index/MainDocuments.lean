import Lineage.Proofs.Index.Scanning
import Lineage.Proofs.WordSet.Search

/-!
# Which main document a hit counts under

Nested documents are stored directly before their main document, so the document that encloses a hit
is the first at or after it that holds the term of the filter, whether it has been deleted or not.
Main documents are kept as sets of live ones, though, and the search through them steps over a
deleted one: a hit whose own main document is gone counts under that of a later block, if there is
one.

## Main statements

- `MainDocuments.mainOf_eq_some_iff`, `MainDocuments.mainOf_eq_none_iff`: what is found;
- `MainDocuments.mainOf_settled`: what is found, and when it is the document that encloses the hit.
-/

namespace Lineage.Index

/-! ## §1 Documents that hold a term, deleted or not -/

namespace Snapshot

variable {s : Snapshot} {filter : FieldTerm} {hit doc main main' : Doc}

/-- A document is stored that has not been deleted. -/
def IsLive (s : Snapshot) (doc : Doc) : Prop := ∃ d, s.stored? doc = some d ∧ d.isLive = true

/-- A document is stored that holds a term, deleted or not. -/
def Holds (s : Snapshot) (filter : FieldTerm) (doc : Doc) : Prop :=
  ∃ d, s.stored? doc = some d ∧ d.holds filter = true

theorem isLive_and_holds : s.IsLive doc ∧ s.Holds filter doc ↔
    ∃ d, s.stored? doc = some d ∧ d.isLive = true ∧ d.holds filter = true := by
  constructor
  · rintro ⟨⟨d, hd, hlive⟩, d', hd', hholds⟩
    obtain rfl : d = d' := Option.some.inj (hd.symm.trans hd')
    exact ⟨d, hd, hlive, hholds⟩
  · rintro ⟨d, hd, hlive, hholds⟩
    exact ⟨⟨d, hd, hlive⟩, d, hd, hholds⟩

/-- A document stands at or after a hit in the segment of the hit. -/
def AtOrAfter (doc hit : Doc) : Prop := doc.segment = hit.segment ∧ hit.id ≤ doc.id

/-- From a hit on, documents are told apart by their numbers. -/
theorem AtOrAfter.eq_of_id {doc' : Doc} (h : AtOrAfter doc hit) (h' : AtOrAfter doc' hit)
    (hid : doc.id = doc'.id) : doc = doc' := by
  obtain ⟨segment, id⟩ := doc
  obtain ⟨segment', id'⟩ := doc'
  rw [show segment = segment' from h.1.trans h'.1.symm, show id = id' from hid]

/-- The document that encloses a hit: the first from the hit on that holds the term of the filter
for main documents, deleted or not. -/
structure Encloses (s : Snapshot) (filter : FieldTerm) (hit main : Doc) : Prop where
  place : AtOrAfter main hit
  holds : s.Holds filter main
  first : ∀ doc, AtOrAfter doc hit → doc.id < main.id → ¬s.Holds filter doc

theorem Encloses.unique (h : s.Encloses filter hit main) (h' : s.Encloses filter hit main') :
    main = main' := by
  apply h.place.eq_of_id h'.place
  apply UInt32.le_antisymm
  · exact UInt32.not_lt.1 fun hlt => h.first main' h'.place hlt h'.holds
  · exact UInt32.not_lt.1 fun hlt => h'.first main h.place hlt h.holds

/-- If anything from a hit on holds the term, something encloses the hit. -/
theorem exists_encloses (hplace : AtOrAfter doc hit) (hholds : s.Holds filter doc) :
    ∃ main, s.Encloses filter hit main ∧ main.id ≤ doc.id := by
  -- the least number from the hit on of a document that holds the term
  obtain ⟨id, ⟨hle, hid⟩, hleast⟩ := (measure UInt32.toNat).wf.has_min
    {id | hit.id ≤ id ∧ s.Holds filter ⟨hit.segment, id⟩}
    ⟨doc.id, hplace.2, by rw [← hplace.1]; exact hholds⟩
  refine ⟨⟨hit.segment, id⟩, ⟨⟨rfl, hle⟩, hid, fun other hother hlt hheld => ?_⟩, ?_⟩
  · exact hleast other.id ⟨hother.2, by rw [← hother.1]; exact hheld⟩ hlt
  · exact UInt32.not_lt.1 fun hlt =>
      hleast doc.id ⟨hplace.2, by rw [← hplace.1]; exact hholds⟩ hlt

end Snapshot

/-! ## §2 What is found -/

namespace MainDocuments

open Snapshot

variable {s : Snapshot} {filter : FieldTerm} {mains : MainDocuments} {hit m : Doc}

/-- Main documents are looked up in the set of their segment. -/
private theorem mainOf_eq_some : mains.mainOf hit = some m ↔
    ∃ ids, mains.segments[hit.segment.toNat]? = some ids ∧ m.segment = hit.segment ∧
      ids.next? hit.id = some m.id := by
  simp only [mainOf, bind, Option.bind_eq_some_iff]
  constructor
  · rintro ⟨ids, hids, id, hnext, hm⟩
    obtain rfl := Option.some.inj hm
    exact ⟨ids, hids, rfl, hnext⟩
  · obtain ⟨segment, id⟩ := m
    rintro ⟨ids, hids, rfl, hnext⟩
    exact ⟨ids, hids, id, hnext, rfl⟩

/-- The set of a segment has the live documents there that hold the term. -/
private theorem mem_ids (haddr : s.Addressable) (h : ofFilter s filter = .ok mains)
    {ids : WordSet} (hids : mains.segments[hit.segment.toNat]? = some ids) :
    ids.Bounded ∧ ∀ doc, doc.segment = hit.segment →
      (doc.id ∈ ids ↔ s.IsLive doc ∧ s.Holds filter doc) := by
  obtain ⟨wanted, hselect, hmains⟩ := Step.except_bind_eq_ok.1 h
  obtain rfl := Except.ok.inj hmains
  obtain rfl := FilterScan.select_eq_ok hselect
  simp only [liveSets, List.getElem?_map, Option.map_eq_some_iff] at hids
  obtain ⟨segment, hsegment, rfl⟩ := hids
  refine ⟨WordSet.bounded_empty.insertAll _, fun doc hdoc => ?_⟩
  -- numbers of documents fit 32 bits, so no two documents of the segment share one
  have hsize := haddr.docs segment (List.mem_of_getElem? hsegment)
  rw [isLive_and_holds, WordSet.mem_iff, WordSet.ofList, WordSet.contains_insertAll]
  simp [mem_liveIds hsize, stored?, hdoc, hsegment]

/-- Every segment has its set. -/
private theorem exists_ids (h : ofFilter s filter = .ok mains) {doc : Doc}
    (hlive : s.IsLive doc) : ∃ ids, mains.segments[doc.segment.toNat]? = some ids := by
  obtain ⟨wanted, -, hmains⟩ := Step.except_bind_eq_ok.1 h
  obtain rfl := Except.ok.inj hmains
  obtain ⟨d, hd, -⟩ := hlive
  obtain ⟨segment, hsegment, -⟩ := stored?_eq_some.1 hd
  rw [liveSets, List.getElem?_map, hsegment]
  exact ⟨_, rfl⟩

/-- The answer for a hit is the first live document from the hit on that holds the term. -/
theorem mainOf_eq_some_iff (haddr : s.Addressable) (h : ofFilter s filter = .ok mains) :
    mains.mainOf hit = some m ↔ AtOrAfter m hit ∧ s.IsLive m ∧ s.Holds filter m ∧
      ∀ doc, AtOrAfter doc hit → doc.id < m.id → s.Holds filter doc → ¬s.IsLive doc := by
  rw [mainOf_eq_some]
  constructor
  · rintro ⟨ids, hids, hsegment, hnext⟩
    obtain ⟨hbounded, hmem⟩ := mem_ids haddr h hids
    obtain ⟨hm, hle, hleast⟩ := (WordSet.next?_eq_some_iff hbounded).1 hnext
    obtain ⟨hlive, hholds⟩ := (hmem m hsegment).1 hm
    refine ⟨⟨hsegment, hle⟩, hlive, hholds, fun doc hdoc hlt hholds hlive => ?_⟩
    -- a live document before the answer would be in the set and be the next member
    have hfound := (hmem doc hdoc.1).2 ⟨hlive, hholds⟩
    exact UInt32.not_le.2 hlt (hleast doc.id hfound hdoc.2)
  · rintro ⟨⟨hsegment, hle⟩, hlive, hholds, hfirst⟩
    -- what is claimed of documents says that the number is the least member from the hit on
    obtain ⟨ids, hids⟩ := exists_ids h hlive
    rw [hsegment] at hids
    obtain ⟨hbounded, hmem⟩ := mem_ids haddr h hids
    have hfound := (hmem m hsegment).2 ⟨hlive, hholds⟩
    refine ⟨ids, hids, hsegment, (WordSet.next?_eq_some_iff hbounded).2 ⟨hfound, hle, ?_⟩⟩
    intro id hid hfrom
    obtain ⟨hlive, hholds⟩ := (hmem ⟨hit.segment, id⟩ rfl).1 hid
    exact UInt32.not_lt.1 fun hlt => hfirst ⟨hit.segment, id⟩ ⟨rfl, hfrom⟩ hlt hholds hlive

/-- There is no answer for a hit if all documents from the hit on that hold the term are deleted. -/
theorem mainOf_eq_none_iff (haddr : s.Addressable) (h : ofFilter s filter = .ok mains) :
    mains.mainOf hit = none ↔
      ∀ doc, AtOrAfter doc hit → s.Holds filter doc → ¬s.IsLive doc := by
  constructor
  · -- a live document has a segment with a set, whose search then cannot come back empty
    intro hnone doc hdoc hholds hlive
    obtain ⟨ids, hids⟩ := exists_ids h hlive
    rw [hdoc.1] at hids
    obtain ⟨hbounded, hmem⟩ := mem_ids haddr h hids
    cases hnext : ids.next? hit.id with
    | none =>
      have hfound := (hmem doc hdoc.1).2 ⟨hlive, hholds⟩
      exact (WordSet.next?_eq_none_iff hbounded).1 hnext doc.id hfound hdoc.2
    | some id =>
      have hsome : mains.mainOf hit = some ⟨hit.segment, id⟩ :=
        mainOf_eq_some.2 ⟨ids, hids, rfl, hnext⟩
      cases hnone.symm.trans hsome
  · intro hnone
    cases hmain : mains.mainOf hit with
    | none => rfl
    | some m =>
      obtain ⟨hplace, hlive, hholds, -⟩ := (mainOf_eq_some_iff haddr h).1 hmain
      exact absurd hlive (hnone m hplace hholds)

/-! ## §3 When it is the document that encloses the hit -/

/-- A live document that encloses a hit is the answer. -/
theorem mainOf_of_encloses (haddr : s.Addressable) (h : ofFilter s filter = .ok mains)
    (hown : s.Encloses filter hit m) (hlive : s.IsLive m) : mains.mainOf hit = some m :=
  (mainOf_eq_some_iff haddr h).2 ⟨hown.place, hlive, hown.holds,
    fun doc hdoc hlt hholds => absurd hholds (hown.first doc hdoc hlt)⟩

/-- The answer encloses the hit exactly if what encloses it is live, or if no answer is given. -/
theorem mainOf_encloses_iff (haddr : s.Addressable) (h : ofFilter s filter = .ok mains) :
    (∀ m, mains.mainOf hit = some m → s.Encloses filter hit m) ↔
      ∀ own, s.Encloses filter hit own → s.IsLive own ∨ mains.mainOf hit = none := by
  constructor
  · intro henclosed own hown
    cases hmain : mains.mainOf hit with
    | none => exact .inr rfl
    | some m =>
      obtain rfl := hown.unique (henclosed m hmain)
      obtain ⟨-, hlive, -⟩ := (mainOf_eq_some_iff haddr h).1 hmain
      exact .inl hlive
  · intro hlive m hmain
    obtain ⟨hplace, -, hholds, -⟩ := (mainOf_eq_some_iff haddr h).1 hmain
    -- the answer holds the term, so something encloses the hit
    obtain ⟨own, hown, -⟩ := exists_encloses hplace hholds
    rcases hlive own hown with hlive | hnone
    · have hsame := mainOf_of_encloses haddr h hown hlive
      obtain rfl : m = own := Option.some.inj (hmain.symm.trans hsame)
      exact hown
    · cases hmain.symm.trans hnone

/-- Live hits count under nothing but the live main document of their own block. -/
def StaysInBlock (s : Snapshot) (filter : FieldTerm) (mains : MainDocuments) : Prop :=
  ∀ hit m, s.IsLive hit → mains.mainOf hit = some m → s.IsLive m ∧ s.Encloses filter hit m

theorem staysInBlock_iff (haddr : s.Addressable) (h : ofFilter s filter = .ok mains) :
    StaysInBlock s filter mains ↔ ∀ hit own, s.IsLive hit → s.Encloses filter hit own →
      s.IsLive own ∨ mains.mainOf hit = none := by
  constructor
  · intro hstays hit own hlive
    exact (mainOf_encloses_iff haddr h).1 (fun m hmain => (hstays hit m hlive hmain).2) own
  · intro hown hit m hlive hmain
    obtain ⟨-, hmainLive, -⟩ := (mainOf_eq_some_iff haddr h).1 hmain
    refine ⟨hmainLive, (mainOf_encloses_iff haddr h).2 (fun own => ?_) m hmain⟩
    exact hown hit own hlive

/-- What hits count under.  The answer for a hit is the first live document from the hit on that
holds the term, and there is none exactly if all of them are deleted.  Hits stay in their blocks
exactly if what encloses them is live or nothing live is found; where what encloses a hit is
deleted, an answer is past it, in a later block. -/
theorem mainOf_settled (haddr : s.Addressable) (h : ofFilter s filter = .ok mains) :
    (∀ hit m, mains.mainOf hit = some m ↔ AtOrAfter m hit ∧ s.IsLive m ∧ s.Holds filter m ∧
      ∀ doc, AtOrAfter doc hit → doc.id < m.id → s.Holds filter doc → ¬s.IsLive doc) ∧
    (∀ hit, mains.mainOf hit = none ↔
      ∀ doc, AtOrAfter doc hit → s.Holds filter doc → ¬s.IsLive doc) ∧
    (StaysInBlock s filter mains ↔ ∀ hit own, s.IsLive hit → s.Encloses filter hit own →
      s.IsLive own ∨ mains.mainOf hit = none) ∧
    ∀ hit own m, s.Encloses filter hit own → ¬s.IsLive own → mains.mainOf hit = some m →
      own.id < m.id := by
  refine ⟨fun hit m => mainOf_eq_some_iff haddr h, fun hit => mainOf_eq_none_iff haddr h,
    staysInBlock_iff haddr h, fun hit own m hown hdeleted hmain => ?_⟩
  obtain ⟨hplace, hlive, hholds, -⟩ := (mainOf_eq_some_iff haddr h).1 hmain
  -- nothing before what encloses the hit holds the term, and it is deleted itself
  refine UInt32.lt_of_le_of_ne (UInt32.not_lt.1 fun hlt => hown.first m hplace hlt hholds) ?_
  intro hid
  exact hdeleted (hown.place.eq_of_id hplace hid ▸ hlive)

/-- Two blocks of a nested document and its main document; the first of those is deleted. -/
def blocks : Snapshot where
  schema := [⟨"role", true, true, false⟩]
  segments := [#[⟨[], true⟩, ⟨[("role", .text "main")], false⟩, ⟨[], true⟩,
    ⟨[("role", .text "main")], true⟩]]

def blockMains : MainDocuments := ⟨[.ofList [3]]⟩

private theorem blocks_addressable : blocks.Addressable where
  segments := by decide
  docs := by
    intro segment hsegment
    rw [List.mem_singleton.1 hsegment]
    decide

private theorem ofFilter_blocks : ofFilter blocks ⟨"role", "main"⟩ = .ok blockMains := by
  decide +kernel

private theorem encloses_blocks : blocks.Encloses ⟨"role", "main"⟩ ⟨0, 0⟩ ⟨0, 1⟩ where
  place := ⟨rfl, by decide⟩
  holds := ⟨⟨[("role", .text "main")], false⟩, rfl, by decide +kernel⟩
  first := by
    rintro ⟨segment, id⟩ ⟨rfl, -⟩ hlt ⟨d, hd, hholds⟩
    -- only the document 0 stands from the hit on and before the one that encloses it
    obtain rfl : id = 0 := by
      have hzero : id.toNat = 0 := by
        have := UInt32.lt_iff_toNat_lt.1 hlt
        simp at this
        omega
      exact UInt32.toNat_inj.1 hzero
    cases hd
    revert hholds
    decide +kernel

/-- The nested document of the first block counts under the main document of the second. -/
theorem not_staysInBlock_blocks : blocks.Addressable ∧
    ofFilter blocks ⟨"role", "main"⟩ = .ok blockMains ∧ blocks.IsLive ⟨0, 0⟩ ∧
    blocks.Encloses ⟨"role", "main"⟩ ⟨0, 0⟩ ⟨0, 1⟩ ∧ blockMains.mainOf ⟨0, 0⟩ = some ⟨0, 3⟩ ∧
    ¬StaysInBlock blocks ⟨"role", "main"⟩ blockMains := by
  have hlive : blocks.IsLive ⟨0, 0⟩ := ⟨⟨[], true⟩, rfl, rfl⟩
  have hmain : blockMains.mainOf ⟨0, 0⟩ = some ⟨0, 3⟩ := by decide +kernel
  refine ⟨blocks_addressable, ofFilter_blocks, hlive, encloses_blocks, hmain, fun hstays => ?_⟩
  have hsame := encloses_blocks.unique (hstays _ _ hlive hmain).2
  exact absurd hsame (by decide)

/-- There the answer is past the main document that is deleted, which the first part of the
theorem tells as well. -/
theorem mainOf_settled_blocks : (1 : UInt32) < 3 ∧
    ∀ doc, AtOrAfter doc ⟨0, 0⟩ → doc.id < 3 → blocks.Holds ⟨"role", "main"⟩ doc →
      ¬blocks.IsLive doc := by
  obtain ⟨hsome, -, -, hpast⟩ := mainOf_settled blocks_addressable ofFilter_blocks
  have hmain : blockMains.mainOf ⟨0, 0⟩ = some ⟨0, 3⟩ := by decide +kernel
  refine ⟨hpast ⟨0, 0⟩ ⟨0, 1⟩ ⟨0, 3⟩ encloses_blocks ?_ hmain, ((hsome _ _).1 hmain).2.2.2⟩
  rintro ⟨d, hd, hlive⟩
  cases hd
  cases hlive

end MainDocuments

end Lineage.Index
