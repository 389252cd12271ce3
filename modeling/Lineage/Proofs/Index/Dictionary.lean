import Lineage.Index.Bucketing
import Lineage.Proofs.Bisection
import Lineage.Proofs.Index.ByteOrder
import Lineage.Proofs.Ordered
import Lineage.Proofs.Steps

/-!
# A dictionary across segments

A numbering is a dictionary of the terms of all segments.  Its ordinals are the places of the terms
in the order of their bytes, every term has one, and a document's ordinals spell out the texts of
the document, one by one, whichever numbers the segment itself gives to its terms.

## Main statements

- `TermNumbering.ordinalIn_eq_some_iff`: the ordinal of a term is its place;
- `TermNumbering.map_term?_ordinalsOf`: the ordinals of a document spell out its texts;
- `TermNumbering.dictionary_of_build`: a numbering that was built is such a dictionary.
-/

namespace Lineage.Index

/-! ## §1 Columns -/

/-- A column lists its terms in ascending order, and its values are places among them. -/
structure TermColumn.Valid (column : TermColumn) : Prop where
  ascends : Ascends column.terms
  placed : ∀ values ∈ column.values, ∀ i ∈ values, i < column.terms.length

/-- The places of a document's values among the terms. -/
def TermColumn.places (column : TermColumn) (id : UInt32) : List Nat :=
  column.values.getD id.toNat []

/-- The texts of a document's values. -/
def TermColumn.texts (column : TermColumn) (id : UInt32) : List String :=
  (column.places id).filterMap (column.terms[·]?)

/-- The texts that a document holds in the columns of all segments. -/
def textsIn (columns : List (Option TermColumn)) (doc : Doc) : List String :=
  ((columns[doc.segment.toNat]?).join.map fun column => column.texts doc.id).getD []

/-- What is found for every member is found in its place. -/
private theorem map_filterMap {α β γ : Type} {find : α → Option β} {name : β → γ} {name' : α → γ}
    {xs : List α} (h : ∀ x ∈ xs, ∃ y, find x = some y ∧ name y = name' x) :
    (xs.filterMap find).map name = xs.map name' := by
  -- as every member is found, `filterMap` drops nothing and the lists go in step
  induction xs with
  | nil => rfl
  | cons x xs ih =>
    obtain ⟨y, hfind, hname⟩ := h x List.mem_cons_self
    rw [List.filterMap_cons_some hfind, List.map_cons, List.map_cons, hname,
      ih fun x hx => h x (List.mem_cons_of_mem _ hx)]

namespace TermColumn.Valid

variable {column : TermColumn}

theorem lt_of_mem_places (h : column.Valid) {id : UInt32} {i : Nat}
    (hi : i ∈ column.places id) : i < column.terms.length := by
  unfold TermColumn.places at hi
  rw [Array.getD_eq_getD_getElem?] at hi
  cases hvalues : column.values[id.toNat]? with
  | none =>
    rw [hvalues] at hi
    cases hi
  | some values =>
    rw [hvalues] at hi
    exact h.placed values (Array.mem_of_getElem? hvalues) i hi

/-- No value of a valid column is passed over. -/
theorem map_texts (h : column.Valid) (id : UInt32) :
    (column.texts id).map some = (column.places id).map (column.terms[·]?) := by
  apply map_filterMap
  intro i hi
  have hlt := h.lt_of_mem_places hi
  exact ⟨column.terms[i], List.getElem?_eq_getElem hlt, (List.getElem?_eq_getElem hlt).symm⟩

/-- The columns of segments are valid. -/
theorem ofSegment {segment : Segment} {field : String}
    (h : TermColumn.ofSegment segment field = some column) : column.Valid := by
  unfold TermColumn.ofSegment at h
  dsimp only at h
  obtain ⟨-, hcolumn⟩ := Option.ite_none_left_eq_some.1 h
  cases hcolumn
  -- values were looked up among the terms, and only those that were found are kept
  refine ⟨ascends_ascending _, ?_⟩
  intro values hvalues i hi
  obtain ⟨d, -, rfl⟩ := Array.mem_map.1 hvalues
  obtain ⟨t, -, hplace⟩ := List.mem_filterMap.1 hi
  obtain ⟨hlt, -⟩ := List.idxOf?_eq_some_iff.1 hplace
  exact hlt

end TermColumn.Valid

/-- A path names the column of a field in a segment, or none. -/
private theorem ofSegment_of_column {s : Snapshot} {segment : Segment} {path : String}
    {column : TermColumn} (h : s.column segment path = .ok (some column)) :
    ∃ field, TermColumn.ofSegment segment field = some column := by
  unfold Snapshot.column at h
  -- no field at all, an object in between, or a field, which must be one of texts
  split at h
  case h_1 => cases h
  case h_2 => cases h
  case h_3 field _ =>
    split at h
    case isTrue => cases h
    case isFalse =>
      split at h
      case isTrue => exact ⟨field.name, Except.ok.inj h⟩
      case isFalse => cases h

/-- The columns that a path names are valid. -/
theorem Snapshot.valid_of_columns {s : Snapshot} {path : String}
    {columns : List (Option TermColumn)} (h : s.columns path = .ok columns) {column : TermColumn}
    (hcolumn : some column ∈ columns) : column.Valid := by
  obtain ⟨⟨segment, i⟩, -, hentry⟩ := Step.exists_of_mem_mapM h hcolumn
  dsimp only at hentry
  cases hopen : s.column segment path with
  | error problem =>
    rw [hopen] at hentry
    cases hentry
  | ok answer =>
    rw [hopen] at hentry
    cases hentry
    obtain ⟨field, hsegment⟩ := ofSegment_of_column hopen
    exact .ofSegment hsegment

namespace TermNumbering

/-! ## §2 Ordinals of terms -/

section OrdinalIn

variable {terms : List String} {t t' : String} {o : Ordinal}

/-- The ordinal of a term is its place, if there are not too many terms for 32 bits to tell the
places apart. -/
theorem ordinalIn_eq_some_iff (hascends : Ascends terms) (hfew : terms.length ≤ mostTerms) :
    ordinalIn terms t = some o ↔ terms[o.toNat]? = some t := by
  -- the search halves an ascending list, so it finds a term if and only if it is there
  have hplace (i : Nat) : bisect terms.toArray t = some i ↔ terms[i]? = some t := by
    rw [bisect_eq_some_iff hascends, List.getElem?_toArray]
  simp only [ordinalIn, Option.map_eq_some_iff, hplace]
  constructor
  · rintro ⟨i, hi, rfl⟩
    obtain ⟨hlt, -⟩ := List.getElem?_eq_some_iff.1 hi
    -- here the bound is needed: a place past 32 bits would come back as another
    simp only [mostTerms, UInt32.size] at hfew
    rwa [UInt32.toNat_ofNat', Nat.mod_eq_of_lt (by omega)]
  · intro ho
    exact ⟨o.toNat, ho, UInt32.ofNat_toNat⟩

/-- Terms that are listed have ordinals. -/
theorem exists_ordinalIn (hascends : Ascends terms) (hfew : terms.length ≤ mostTerms)
    (h : t ∈ terms) : ∃ o, ordinalIn terms t = some o := by
  obtain ⟨i, hi, rfl⟩ := List.mem_iff_getElem.1 h
  simp only [mostTerms, UInt32.size] at hfew
  refine ⟨.ofNat i, (ordinalIn_eq_some_iff hascends hfew).2 ?_⟩
  rw [UInt32.toNat_ofNat', Nat.mod_eq_of_lt (by omega), List.getElem?_eq_getElem hi]

/-- An ordinal stands for one term. -/
theorem ordinalIn_inj (hascends : Ascends terms) (hfew : terms.length ≤ mostTerms)
    (h : ordinalIn terms t = some o) (h' : ordinalIn terms t' = some o) : t = t' := by
  rw [ordinalIn_eq_some_iff hascends hfew] at h h'
  exact Option.some.inj (h.symm.trans h')

end OrdinalIn

/-! ## §3 Numbered columns -/

/-- A segment's column, numbered through the terms of all segments. -/
def numberThrough (terms : List String) (column : TermColumn) : NumberedColumn :=
  ⟨column, (column.terms.map fun term => (ordinalIn terms term).getD 0).toArray⟩

/-- What a numbering of columns is made of. -/
structure Merges (n : TermNumbering) (columns : List (Option TermColumn)) : Prop where
  ascends : Ascends n.terms
  few : n.terms.length ≤ mostTerms
  mem_terms : ∀ t, t ∈ n.terms ↔ ∃ column, some column ∈ columns ∧ t ∈ column.terms
  numbered : n.columns = columns.map fun column => column.map (numberThrough n.terms)

theorem merges_of_ofColumns {field : String} {columns : List (Option TermColumn)}
    {n : TermNumbering} (h : ofColumns field columns = .ok n) : n.Merges columns := by
  unfold ofColumns at h
  dsimp only at h
  split at h
  case isTrue => cases h
  case isFalse hfew =>
    cases h
    -- the terms are those of all columns, put in order and without repeats
    refine ⟨ascends_ascending _, Nat.le_of_not_lt hfew, fun t => ?_, rfl⟩
    rw [mem_ascending, List.mem_flatMap]
    constructor
    · rintro ⟨column, hcolumn, ht⟩
      cases column with
      | none => cases ht
      | some column => exact ⟨column, hcolumn, ht⟩
    · rintro ⟨column, hcolumn, ht⟩
      exact ⟨some column, hcolumn, ht⟩

namespace Merges

variable {n : TermNumbering} {columns : List (Option TermColumn)}

theorem ordinal?_eq_some_iff (h : n.Merges columns) {t : String} {o : Ordinal} :
    n.ordinal? t = some o ↔ n.term? o = some t :=
  ordinalIn_eq_some_iff h.ascends h.few

/-- The terms of the columns have ordinals. -/
theorem exists_ordinal? (h : n.Merges columns) {column : TermColumn}
    (hcolumn : some column ∈ columns) {t : String} (ht : t ∈ column.terms) :
    ∃ o, n.ordinal? t = some o :=
  exists_ordinalIn h.ascends h.few ((h.mem_terms t).2 ⟨column, hcolumn, ht⟩)

/-- The ordinals of a column are those that are found for its terms. -/
theorem map_ordinals (h : n.Merges columns) {column : TermColumn}
    (hcolumn : some column ∈ columns) :
    (numberThrough n.terms column).ordinals.toList.map some = column.terms.map n.ordinal? := by
  simp only [numberThrough, List.map_map]
  apply List.map_congr_left
  intro t ht
  -- the number for terms that are not found is never used
  obtain ⟨o, ho⟩ := h.exists_ordinal? hcolumn ht
  rw [ho, Function.comp_apply, show ordinalIn n.terms t = some o from ho, Option.getD_some]

/-- The number that a segment gives to a term leads to the ordinal of the term. -/
theorem ordinals_getElem? (h : n.Merges columns) {column : TermColumn}
    (hcolumn : some column ∈ columns) {i : Nat} (hi : i < column.terms.length) :
    (numberThrough n.terms column).ordinals[i]? = n.ordinal? column.terms[i] := by
  have hplace := congrArg (·[i]?) (h.map_ordinals hcolumn)
  simp only [List.getElem?_map, Array.getElem?_toList, List.getElem?_eq_getElem hi,
    Option.map_some, Option.map_eq_some_iff] at hplace
  obtain ⟨o, ho, hterm⟩ := hplace
  rw [ho, hterm]

/-- The ordinals of a document spell out its texts, one by one. -/
theorem map_term?_ordinalsOf (h : n.Merges columns)
    (hvalid : ∀ column, some column ∈ columns → column.Valid) (doc : Doc) :
    (n.ordinalsOf doc).map n.term? = (textsIn columns doc).map some := by
  unfold ordinalsOf textsIn
  rw [h.numbered, List.getElem?_map]
  cases hsegment : columns[doc.segment.toNat]? with
  | none => rfl
  | some entry =>
    cases entry with
    | none => rfl
    | some column =>
      have hcolumn := List.mem_of_getElem? hsegment
      simp only [Option.map_some, Option.join_some, Option.getD_some]
      rw [(hvalid column hcolumn).map_texts]
      -- value by value: the segment's own number, the ordinal it leads to, and its term
      apply map_filterMap
      intro i hi
      have hlt := (hvalid column hcolumn).lt_of_mem_places hi
      obtain ⟨o, ho⟩ := h.exists_ordinal? hcolumn (List.getElem_mem hlt)
      refine ⟨o, ?_, ?_⟩
      · rw [h.ordinals_getElem? hcolumn hlt, ho]
      · rw [h.ordinal?_eq_some_iff.1 ho, List.getElem?_eq_getElem hlt]

/-- Every text of a document has an ordinal. -/
theorem exists_ordinal?_of_mem_textsIn (h : n.Merges columns)
    (hvalid : ∀ column, some column ∈ columns → column.Valid) {doc : Doc} {t : String}
    (ht : t ∈ textsIn columns doc) : ∃ o, n.ordinal? t = some o := by
  have hterm : some t ∈ (n.ordinalsOf doc).map n.term? :=
    h.map_term?_ordinalsOf hvalid doc ▸ List.mem_map_of_mem ht
  obtain ⟨o, -, ho⟩ := List.mem_map.1 hterm
  exact ⟨o, h.ordinal?_eq_some_iff.2 ho⟩

/-- A document's ordinals are those of its texts. -/
theorem mem_ordinalsOf (h : n.Merges columns)
    (hvalid : ∀ column, some column ∈ columns → column.Valid) {doc : Doc} {o : Ordinal} :
    o ∈ n.ordinalsOf doc ↔ ∃ t ∈ textsIn columns doc, n.ordinal? t = some o := by
  -- both directions read the spelling, from the ordinals and from the texts
  have hspelled := h.map_term?_ordinalsOf hvalid doc
  constructor
  · intro ho
    have hterm : n.term? o ∈ (textsIn columns doc).map some :=
      hspelled ▸ List.mem_map_of_mem ho
    obtain ⟨t, ht, heq⟩ := List.mem_map.1 hterm
    exact ⟨t, ht, h.ordinal?_eq_some_iff.2 heq.symm⟩
  · rintro ⟨t, ht, ho⟩
    have htext : some t ∈ (n.ordinalsOf doc).map n.term? := hspelled ▸ List.mem_map_of_mem ht
    obtain ⟨o', ho', hterm⟩ := List.mem_map.1 htext
    obtain rfl : o' = o := by
      have hsame := h.ordinal?_eq_some_iff.2 hterm
      rw [ho] at hsame
      exact (Option.some.inj hsame).symm
    exact ho'

end Merges

/-! ## §4 Dictionaries -/

/-- A numbering is a dictionary of some columns. -/
structure Dictionary (n : TermNumbering) (columns : List (Option TermColumn)) : Prop where
  /-- There are not more terms than ordinals. -/
  size_le : n.size ≤ mostTerms
  /-- Ordinals stand for terms exactly below the number of terms. -/
  isSome_term?_iff : ∀ o, (n.term? o).isSome ↔ o.toNat < n.size
  /-- They are ordered as the bytes of their terms. -/
  lt_iff_bytes_lt : ∀ o o' t t', n.term? o = some t → n.term? o' = some t' →
    (o < o' ↔ textBytes t < textBytes t')
  /-- Terms and ordinals are found from each other. -/
  ordinal?_eq_some_iff : ∀ t o, n.ordinal? t = some o ↔ n.term? o = some t
  /-- The terms are those of the columns. -/
  exists_term?_iff : ∀ t, (∃ o, n.term? o = some t) ↔
    ∃ column, some column ∈ columns ∧ t ∈ column.terms
  /-- The number that a segment gives to a term leads to the ordinal that is found for the term;
  there always is one. -/
  renumbers : ∀ (i : Nat) (column : TermColumn), columns[i]? = some (some column) →
    ∃ numbered : NumberedColumn, n.columns[i]? = some (some numbered) ∧ numbered.column = column ∧
      numbered.ordinals.toList.map some = column.terms.map n.ordinal?
  lt_size_of_mem : ∀ doc, ∀ o ∈ n.ordinalsOf doc, o.toNat < n.size
  /-- The ordinals of a document spell out its texts, in order and with repeats. -/
  map_term? : ∀ doc, (n.ordinalsOf doc).map n.term? = (textsIn columns doc).map some
  /-- Documents share an ordinal exactly if they share a text, whatever their segments. -/
  shares_iff : ∀ doc doc', (∃ o, o ∈ n.ordinalsOf doc ∧ o ∈ n.ordinalsOf doc') ↔
    ∃ t, t ∈ textsIn columns doc ∧ t ∈ textsIn columns doc'
  /-- The buckets of a document are its ordinals, ascending and without repeats. -/
  buckets_pairwise_lt : ∀ doc, ((Bucketing.ofTerms n).buckets doc).Pairwise (· < ·)
  mem_buckets_iff : ∀ doc o, o ∈ (Bucketing.ofTerms n).buckets doc ↔ o ∈ n.ordinalsOf doc

namespace Merges

variable {n : TermNumbering} {columns : List (Option TermColumn)}

theorem isSome_term?_iff (o : Ordinal) : (n.term? o).isSome ↔ o.toNat < n.size := by
  simp [term?, size]

/-- Ordinals are ordered as the bytes of their terms. -/
theorem lt_iff_bytes_lt (h : n.Merges columns) {o o' : Ordinal} {t t' : String}
    (ht : n.term? o = some t) (ht' : n.term? o' = some t') :
    o < o' ↔ textBytes t < textBytes t' := by
  rw [← compare_text_eq_lt_iff, h.ascends.compare_eq_lt_iff ht ht', UInt32.lt_iff_toNat_lt]

/-- Documents share an ordinal exactly if they share a text. -/
theorem shares_iff (h : n.Merges columns)
    (hvalid : ∀ column, some column ∈ columns → column.Valid) (doc doc' : Doc) :
    (∃ o, o ∈ n.ordinalsOf doc ∧ o ∈ n.ordinalsOf doc') ↔
      ∃ t, t ∈ textsIn columns doc ∧ t ∈ textsIn columns doc' := by
  simp only [h.mem_ordinalsOf hvalid]
  constructor
  · rintro ⟨o, ⟨t, ht, ho⟩, t', ht', ho'⟩
    -- the texts behind the common ordinal are one text
    obtain rfl := ordinalIn_inj h.ascends h.few ho ho'
    exact ⟨t, ht, ht'⟩
  · rintro ⟨t, ht, ht'⟩
    obtain ⟨o, ho⟩ := h.exists_ordinal?_of_mem_textsIn hvalid ht
    exact ⟨o, ⟨t, ht, ho⟩, t, ht', ho⟩

theorem dictionary (h : n.Merges columns)
    (hvalid : ∀ column, some column ∈ columns → column.Valid) : n.Dictionary columns where
  size_le := h.few
  isSome_term?_iff := isSome_term?_iff
  lt_iff_bytes_lt _ _ _ _ ht ht' := h.lt_iff_bytes_lt ht ht'
  ordinal?_eq_some_iff _ _ := h.ordinal?_eq_some_iff
  exists_term?_iff t := by
    rw [← h.mem_terms]
    constructor
    · rintro ⟨o, ho⟩
      exact List.mem_of_getElem? ho
    · intro ht
      obtain ⟨o, ho⟩ := exists_ordinalIn h.ascends h.few ht
      exact ⟨o, h.ordinal?_eq_some_iff.1 ho⟩
  renumbers i column hcolumn := by
    refine ⟨numberThrough n.terms column, ?_, rfl, ?_⟩
    · rw [h.numbered, List.getElem?_map, hcolumn, Option.map_some, Option.map_some]
    · exact h.map_ordinals (List.mem_of_getElem? hcolumn)
  lt_size_of_mem doc o ho := by
    obtain ⟨t, -, ht⟩ := (h.mem_ordinalsOf hvalid).1 ho
    rw [← isSome_term?_iff, h.ordinal?_eq_some_iff.1 ht]
    rfl
  map_term? := h.map_term?_ordinalsOf hvalid
  shares_iff := h.shares_iff hvalid
  buckets_pairwise_lt doc := (ascends_ascending _).imp Std.compare_eq_lt.1
  mem_buckets_iff doc o := mem_ascending

end Merges

/-- A numbering that was built is a dictionary: of any columns that are valid, and of the columns
that a path names in a snapshot, which always are. -/
theorem dictionary_of_build :
    (∀ (field : String) (columns : List (Option TermColumn)) (n : TermNumbering),
      (∀ column, some column ∈ columns → column.Valid) → ofColumns field columns = .ok n →
        n.Dictionary columns) ∧
    (∀ (s : Snapshot) (path : String) (n : TermNumbering), build s path = .ok n →
      ∃ columns, s.columns path = .ok columns ∧
        (∀ column, some column ∈ columns → column.Valid) ∧ n.Dictionary columns) := by
  constructor
  · intro field columns n hvalid h
    exact (merges_of_ofColumns h).dictionary hvalid
  · intro s path n h
    obtain ⟨columns, hcolumns, hnumbering⟩ := Step.except_bind_eq_ok.1 h
    have hvalid (column : TermColumn) (hcolumn : some column ∈ columns) : column.Valid :=
      Snapshot.valid_of_columns hcolumns hcolumn
    exact ⟨columns, hcolumns, hvalid, (merges_of_ofColumns hnumbering).dictionary hvalid⟩

/-- The columns of three segments.  The first two hold a term in common, under different numbers,
and no document of the last has a value. -/
def overlappingColumns : List (Option TermColumn) :=
  [some ⟨["b", "d"], #[[0], [1]]⟩, some ⟨["a", "c", "d"], #[[2, 0, 2], [1]]⟩, none]

def overlappingNumbering : TermNumbering :=
  ⟨["a", "b", "c", "d"], [some ⟨⟨["b", "d"], #[[0], [1]]⟩, #[1, 3]⟩,
    some ⟨⟨["a", "c", "d"], #[[2, 0, 2], [1]]⟩, #[0, 2, 3]⟩, none]⟩

/-- Segments that have these columns. -/
def overlappingSegments : Snapshot where
  schema := [⟨"key", true, true, true⟩]
  segments :=
    [#[⟨[("key", .text "b")], true⟩, ⟨[("key", .text "d")], false⟩],
      #[⟨[("key", .text "d"), ("key", .text "a"), ("key", .text "d")], true⟩,
        ⟨[("key", .text "c")], true⟩], #[⟨[], true⟩]]

theorem dictionary_of_overlapping :
    overlappingNumbering.Dictionary overlappingColumns ∧
    ∃ columns, overlappingSegments.columns "key" = .ok columns ∧
      (∀ column, some column ∈ columns → column.Valid) ∧
      overlappingNumbering.Dictionary columns := by
  have hvalid (column : TermColumn) (hcolumn : some column ∈ overlappingColumns) :
      column.Valid := by
    simp only [overlappingColumns, List.mem_cons, Option.some.injEq, List.not_mem_nil, or_false,
      reduceCtorEq] at hcolumn
    rcases hcolumn with rfl | rfl
    · exact ⟨by decide, by decide⟩
    · exact ⟨by decide, by decide⟩
  have hnumbering : ofColumns "key" overlappingColumns = .ok overlappingNumbering := by
    decide +kernel
  have hbuild : build overlappingSegments "key" = .ok overlappingNumbering := by
    decide +kernel
  exact ⟨dictionary_of_build.1 "key" overlappingColumns overlappingNumbering hvalid hnumbering,
    dictionary_of_build.2 overlappingSegments "key" overlappingNumbering hbuild⟩

end TermNumbering

end Lineage.Index
