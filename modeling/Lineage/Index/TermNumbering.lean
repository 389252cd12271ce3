import Lineage.Ascending
import Lineage.Bisection
import Lineage.Index.FieldPath

/-!
# Term numbering

Ordinals for the terms of a column.  Every segment numbers the terms of its own documents; these
numbers mean nothing outside the segment.  To compare values across segments, the terms of all
segments are merged into one ascending list, and each segment's numbers are mapped to positions in
that list.

Terms held by deleted documents are numbered like all others.
-/

namespace Lineage.Index

/-! ## §1 One segment -/

/-- The column of a segment: its terms, ascending, and for each document the positions of its
values among them. -/
structure TermColumn where
  terms : List String
  values : Array (List Nat)
deriving DecidableEq, Repr

/-- The column of a segment for a field of texts; none if no document has a value. -/
def TermColumn.ofSegment (segment : Segment) (field : String) : Option TermColumn :=
  let terms := ascending (segment.toList.flatMap (·.texts field))
  if terms.isEmpty then none
  else some ⟨terms, segment.map fun d => (d.texts field).filterMap (terms.idxOf? ·)⟩

/-- Whether a field's column can be looked up.  Segments file their columns under names that a
zero character ends, and pass over a name that holds one. -/
def Field.isFiled (field : Field) : Bool := '\x00' ∉ field.name.toList

/-- The column of a segment that a path names.  A path that leads below a field and a field that
does not hold texts have none; a field that is not stored in a column is refused. -/
def Snapshot.column (s : Snapshot) (segment : Segment) (path : String) :
    Except SearchProblem (Option TermColumn) :=
  match s.fieldAt? path with
  | none | some (_, _ :: _) => .ok none
  | some (field, []) =>
    if ¬field.isColumn then .error (.notColumn field.name)
    else if field.isText && field.isFiled then .ok (TermColumn.ofSegment segment field.name)
    else .ok none

/-- The columns of all segments that a path names. -/
def Snapshot.columns (s : Snapshot) (path : String) : Except Fault (List (Option TermColumn)) :=
  (s.segments.zipIdx).mapM fun (segment, i) =>
    (s.column segment path).mapError fun problem =>
      (Fault.search problem).under s!"Failed to open fast field '{path}' in segment {i}"

/-! ## §2 All segments -/

/-- A segment's column with the ordinals of its terms. -/
structure NumberedColumn where
  column : TermColumn
  ordinals : Array Ordinal
deriving DecidableEq, Repr

/-- The ordinals of a column's terms across all segments. -/
structure TermNumbering where
  /-- The terms of all segments, ascending; positions are ordinals. -/
  terms : List String
  columns : List (Option NumberedColumn)
deriving DecidableEq, Repr

namespace TermNumbering

def mostTerms : Nat := UInt32.size - 1

/-- The ordinal of a term among ascending terms. -/
def ordinalIn (terms : List String) (term : String) : Option Ordinal :=
  (bisect terms.toArray term).map UInt32.ofNat

/-- The numbering of the terms of some columns. -/
def ofColumns (field : String) (columns : List (Option TermColumn)) :
    Except Fault TermNumbering :=
  let terms := ascending (columns.flatMap fun column => (column.map TermColumn.terms).getD [])
  if mostTerms < terms.length then .error (.growth (.terms field terms.length))
  else .ok ⟨terms, columns.map fun column => column.map fun column =>
    ⟨column, (column.terms.map fun term => (ordinalIn terms term).getD 0).toArray⟩⟩

/-- The numbering of the terms that a snapshot holds in the columns that a path names. -/
def build (s : Snapshot) (path : String) : Except Fault TermNumbering := do
  ofColumns path (← s.columns path)

def size (n : TermNumbering) : Nat := n.terms.length

def term? (n : TermNumbering) (ordinal : Ordinal) : Option String := n.terms[ordinal.toNat]?

/-- The ordinal of a term that some segment holds. -/
def ordinal? (n : TermNumbering) (term : String) : Option Ordinal := ordinalIn n.terms term

/-- The ordinals of a document's values, in their order and with repeats. -/
def ordinalsOf (n : TermNumbering) (doc : Doc) : List Ordinal :=
  match (n.columns[doc.segment.toNat]?).join with
  | none => []
  | some numbered =>
    (numbered.column.values.getD doc.id.toNat []).filterMap fun i => numbered.ordinals[i]?

end TermNumbering

/-! ## §3 Columns that can be joined on -/

/-- Join keys and bucket terms must be texts that are stored in a column. -/
def Snapshot.ensureStringColumn (s : Snapshot) (field : String) : Except Fault Unit :=
  match s.field? field with
  | none => .error (.configuration (.unknownField field))
  | some f =>
    if f.isText && f.isColumn then .ok () else .error (.configuration (.notStringColumn field))

/-- The numbering of a field whose texts are stored in a column. -/
def TermNumbering.ofField (s : Snapshot) (field : String) : Except Fault TermNumbering := do
  s.ensureStringColumn field
  build s field

end Lineage.Index
