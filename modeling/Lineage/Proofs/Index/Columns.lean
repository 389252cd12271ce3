import Lineage.Proofs.Index.Dictionary

/-!
# Ordinals stand for texts

The ordinals of a column are the texts of its documents under other names: every text that a
document holds has an ordinal, two texts never share one, and a document's ordinals are those of
its texts.  This holds across segments, whatever numbers the segments give to their own terms.

## Main statements

- `TermNumbering.ordinal?_inj`: an ordinal stands for one text;
- `TermNumbering.numbers_of_ofField`: the ordinals of a document are those of its texts.
-/

namespace Lineage.Index

/-! ## §1 Documents and their texts -/

/-- The document stored at an address, live or not. -/
def Snapshot.stored? (s : Snapshot) (doc : Doc) : Option Stored :=
  (s.segments[doc.segment.toNat]?).bind fun segment => segment[doc.id.toNat]?

/-- The segment and the place of a document that is stored. -/
theorem Snapshot.stored?_eq_some {s : Snapshot} {doc : Doc} {d : Stored} :
    s.stored? doc = some d ↔ ∃ segment, s.segments[doc.segment.toNat]? = some segment ∧
      segment[doc.id.toNat]? = some d := by
  simp [Snapshot.stored?, Option.bind_eq_some_iff]

/-- The texts of a document in a column.  A column whose name holds a zero character is not
filed, and then no document has a text there. -/
def Stored.columnTexts (d : Stored) (column : String) : List String :=
  if '\x00' ∈ column.toList then [] else d.texts column

/-! ## §2 The columns of a field of texts -/

/-- The column of a segment, if its name allows it to be filed. -/
def filedColumn (segment : Segment) (column : String) : Option TermColumn :=
  if '\x00' ∈ column.toList then none else TermColumn.ofSegment segment column

/-- A path that names a field of texts leads to the columns of that field. -/
theorem columns_of_ensureStringColumn {s : Snapshot} {column : String}
    (h : s.ensureStringColumn column = .ok ()) :
    s.columns column = .ok (s.segments.map fun segment => filedColumn segment column) := by
  unfold Snapshot.ensureStringColumn at h
  cases hfield : s.field? column with
  | none =>
    rw [hfield] at h
    cases h
  | some field =>
    simp only [hfield] at h
    split at h
    case isFalse => cases h
    -- a name that is found whole stands for the field itself, with no path below it
    case isTrue htext =>
      obtain ⟨htext, hcolumn⟩ := Bool.and_eq_true_iff.1 htext
      have hname : field.name = column := by
        simpa using List.find?_some hfield
      have hpath : s.fieldAt? column = some (field, []) := by
        simp only [Snapshot.fieldAt?, hfield]
      have hone (segment : Segment) : s.column segment column =
          .ok (filedColumn segment column) := by
        simp only [Snapshot.column, hpath, hcolumn, htext, filedColumn, Field.isFiled, hname]
        by_cases hzero : '\x00' ∈ column.toList
        · simp [hzero]
        · simp [hzero]
      unfold Snapshot.columns
      rw [Step.mapM_eq_ok_map (g := fun entry => filedColumn entry.1 column)]
      · conv_rhs => rw [← List.zipIdx_map_fst 0 s.segments, List.map_map]
        rfl
      · rintro ⟨segment, i⟩ -
        simp only [hone]
        rfl

/-- A filed column gives the documents their texts. -/
private theorem texts_of_filedColumn {segment : Segment} {column : String} {c : TermColumn}
    (h : filedColumn segment column = some c) (id : UInt32) :
    c.texts id = ((segment[id.toNat]?).map fun d => d.columnTexts column).getD [] := by
  unfold filedColumn at h
  split at h
  case isTrue => cases h
  case isFalse hfiled =>
    unfold TermColumn.ofSegment at h
    dsimp only at h
    obtain ⟨-, hcolumn⟩ := Option.ite_none_left_eq_some.1 h
    cases hcolumn
    unfold TermColumn.texts TermColumn.places Stored.columnTexts
    rw [Array.getD_eq_getD_getElem?, Array.getElem?_map]
    -- a document outside the segment has no values, and none is stored there either
    cases hplace : segment[id.toNat]? with
    | none => rfl
    | some d =>
      have hmem : d ∈ segment.toList := Array.mem_toList_iff.2 (Array.mem_of_getElem? hplace)
      simp only [Option.map_some, Option.getD_some, if_neg hfiled, List.filterMap_filterMap]
      refine (List.filterMap_congr fun t ht => ?_).trans List.filterMap_some
      -- every text is a term, and found again at its place
      have hterm : t ∈ ascending (segment.toList.flatMap (·.texts column)) := by
        rw [mem_ascending, List.mem_flatMap]
        exact ⟨d, hmem, ht⟩
      obtain ⟨i, hi⟩ := Option.isSome_iff_exists.1 (List.isSome_idxOf?.2 hterm)
      obtain ⟨hlt, hat, -⟩ := List.idxOf?_eq_some_iff.1 hi
      rw [hi, Option.bind_some, List.getElem?_eq_getElem hlt, hat]

/-- Without a filed column no document of the segment has a text. -/
private theorem filedColumn_eq_none {segment : Segment} {column : String}
    (h : filedColumn segment column = none) : ∀ d ∈ segment.toList, d.columnTexts column = [] := by
  intro d hd
  unfold filedColumn at h
  unfold Stored.columnTexts
  split at h
  case isTrue hzero => rw [if_pos hzero]
  case isFalse hfiled =>
    rw [if_neg hfiled]
    unfold TermColumn.ofSegment at h
    dsimp only at h
    split at h
    case isTrue hnone =>
      -- a text would be a term
      apply List.eq_nil_iff_forall_not_mem.2
      intro t ht
      have hterm : t ∈ ascending (segment.toList.flatMap (·.texts column)) := by
        rw [mem_ascending, List.mem_flatMap]
        exact ⟨d, hd, ht⟩
      rw [List.isEmpty_iff.1 hnone] at hterm
      cases hterm
    case isFalse => cases h

/-! ## §3 The ordinals of a document -/

namespace TermNumbering

/-- A numbering numbers the texts of a column: all of them have ordinals, and the ordinals of a
document are those of its texts. -/
structure Numbers (n : TermNumbering) (s : Snapshot) (column : String) : Prop where
  ascends : Ascends n.terms
  few : n.terms.length ≤ mostTerms
  numbered : ∀ doc d t, s.stored? doc = some d → t ∈ d.columnTexts column →
    ∃ o, n.ordinal? t = some o
  mem_ordinalsOf : ∀ doc o, o ∈ n.ordinalsOf doc ↔
    ∃ d t, s.stored? doc = some d ∧ t ∈ d.columnTexts column ∧ n.ordinal? t = some o

theorem Numbers.ordinal?_inj {n : TermNumbering} {s : Snapshot} {column : String}
    (h : n.Numbers s column) {t t' : String} {o : Ordinal} (ht : n.ordinal? t = some o)
    (ht' : n.ordinal? t' = some o) : t = t' :=
  ordinalIn_inj h.ascends h.few ht ht'

/-- The texts in the columns of a field are those of the stored documents. -/
private theorem textsIn_filedColumns {s : Snapshot} {column : String} (doc : Doc) :
    textsIn (s.segments.map fun segment => filedColumn segment column) doc =
      ((s.stored? doc).map fun d => d.columnTexts column).getD [] := by
  unfold textsIn Snapshot.stored?
  rw [List.getElem?_map]
  cases hsegment : s.segments[doc.segment.toNat]? with
  | none => rfl
  | some segment =>
    simp only [Option.map_some, Option.join_some, Option.bind_some]
    cases hfiled : filedColumn segment column with
    | some c => exact texts_of_filedColumn hfiled doc.id
    -- a segment without a column has no document with a text in it
    | none =>
      cases hplace : segment[doc.id.toNat]? with
      | none => rfl
      | some d =>
        have hmem : d ∈ segment.toList := Array.mem_toList_iff.2 (Array.mem_of_getElem? hplace)
        exact (filedColumn_eq_none hfiled d hmem).symm

theorem numbers_of_ofField {s : Snapshot} {column : String} {n : TermNumbering}
    (h : ofField s column = .ok n) : n.Numbers s column := by
  obtain ⟨checked, hensure, hbuild⟩ := Step.except_bind_eq_ok.1 h
  obtain ⟨columns, hcolumns, hnumbering⟩ := Step.except_bind_eq_ok.1 hbuild
  have hmerges := merges_of_ofColumns hnumbering
  -- the columns are valid as those of the snapshot, before they are told apart
  have hvalid (c : TermColumn) (hc : some c ∈ columns) : c.Valid :=
    Snapshot.valid_of_columns hcolumns hc
  rw [columns_of_ensureStringColumn hensure] at hcolumns
  cases hcolumns
  -- so the texts that the dictionary speaks of are those of the stored documents
  have htexts (doc : Doc) (t : String) :
      t ∈ textsIn (s.segments.map fun segment => filedColumn segment column) doc ↔
        ∃ d, s.stored? doc = some d ∧ t ∈ d.columnTexts column := by
    rw [textsIn_filedColumns]
    cases s.stored? doc <;> simp
  refine ⟨hmerges.ascends, hmerges.few, fun doc d t hd ht => ?_, fun doc o => ?_⟩
  · exact hmerges.exists_ordinal?_of_mem_textsIn hvalid ((htexts doc t).2 ⟨d, hd, ht⟩)
  · rw [hmerges.mem_ordinalsOf hvalid]
    simp only [htexts]
    constructor
    · rintro ⟨t, ⟨d, hd, ht⟩, ho⟩
      exact ⟨d, t, hd, ht, ho⟩
    · rintro ⟨d, t, hd, ht, ho⟩
      exact ⟨t, ⟨d, hd, ht⟩, ho⟩

end TermNumbering

end Lineage.Index
