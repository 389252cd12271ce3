import Lineage.Fault
import Lineage.Index.FieldTerm

/-!
# Index snapshots

What an index holds at one moment: a schema and segments of documents.  Deleting a document leaves
it in its segment, where it keeps its number and its column values; it only is no longer found.  A
segment without live documents is gone.

Documents are found by terms, which are bytes.  A term is asked for by a text, and finds a text by
being it (`Value.isFoundBy_text`); it finds a number whose eight bytes happen to be those of the
text.
-/

namespace Lineage.Index

/-! ## §1 Values and their terms -/

inductive Value where
  | text (s : String)
  | number (n : UInt64)
deriving DecidableEq, Repr, Inhabited

def longestTerm : Nat := 65530

def textBytes (s : String) : List UInt8 := s.toUTF8.data.toList

/-- The bytes by which a value can be found: a text has those of its UTF-8 form, and a number its
eight bytes, the most significant first. -/
def Value.bytes : Value → List UInt8
  | text s => textBytes s
  | number n => (List.range 8).reverse.map fun i => .ofNat (n.toNat / Nat.pow 256 i)

/-- Whether a value is found by a term.  A value that is too long for a term never is. -/
def Value.isFoundBy (v : Value) (term : String) : Bool :=
  v.bytes = textBytes term && v.bytes.length ≤ longestTerm

/-- Texts with the same bytes are the same. -/
theorem textBytes_inj {s t : String} : textBytes s = textBytes t ↔ s = t := by
  rw [textBytes, textBytes, Array.toList_inj, ← ByteArray.ext_iff]
  exact String.toByteArray_inj

/-- A text is found by itself alone, if it is not too long. -/
theorem Value.isFoundBy_text (s term : String) :
    (text s).isFoundBy term = (decide (s = term) && decide (s.utf8ByteSize ≤ longestTerm)) := by
  have size : (textBytes s).length = s.utf8ByteSize := by
    rw [textBytes, Array.length_toList, ByteArray.size_data]
    exact String.size_toByteArray
  simp [isFoundBy, bytes, textBytes_inj, size]

/-! ## §2 Schema and documents -/

structure Field where
  name : String
  /-- Whether its values are texts; they are numbers otherwise. -/
  isText : Bool
  isIndexed : Bool
  /-- Whether its values are stored in a column, by document. -/
  isColumn : Bool
deriving DecidableEq, Repr, Inhabited

structure Stored where
  /-- The values of the fields in the order in which they were given; a field may repeat. -/
  values : List (String × Value)
  /-- Whether the document has not been deleted. -/
  isLive : Bool
deriving DecidableEq, Repr, Inhabited

/-- Whether a document is found by a term of a field: one of its values there is. -/
def Stored.holds (d : Stored) (filter : FieldTerm) : Bool :=
  d.values.any fun (name, v) => name = filter.field && v.isFoundBy filter.term

/-- The texts that a document holds in a field, in order and with repeats. -/
def Stored.texts (d : Stored) (field : String) : List String :=
  d.values.filterMap fun
    | (name, .text s) => if name = field then some s else none
    | _ => none

/-- The documents of a segment; positions are document numbers. -/
abbrev Segment := Array Stored

/-- What an index holds at one moment. -/
structure Snapshot where
  schema : List Field
  segments : List Segment
deriving DecidableEq, Repr, Inhabited

/-! ## §3 Finding documents -/

/-- The document numbers of a segment's live documents with some property, ascending. -/
def Segment.liveIds (segment : Segment) (wanted : Stored → Bool) : List UInt32 :=
  segment.toList.zipIdx.filterMap fun (d, id) =>
    if d.isLive && wanted d then some (.ofNat id) else none

namespace Snapshot

def field? (s : Snapshot) (name : String) : Option Field :=
  s.schema.find? fun field => field.name = name

def numbered (s : Snapshot) : List (SegmentId × Segment) :=
  s.segments.zipIdx.map fun (segment, i) => (.ofNat i, segment)

/-- The property that a term filter on a known field asks for. -/
def termOf (field : Field) (filter : FieldTerm) : Except Fault (Stored → Bool) :=
  if field.isIndexed then .ok fun d => d.holds filter
  else .error (.search (.notIndexed filter.field))

/-- The property that a configured filter asks for. -/
def select (s : Snapshot) (filter : FieldTerm) : Except Fault (Stored → Bool) :=
  match s.field? filter.field with
  | none => .error (.configuration (.unknownFilterField filter.field))
  | some field => termOf field filter

/-! ## §4 Building -/

def delete (s : Snapshot) (filter : FieldTerm) : Snapshot :=
  match s.select filter with
  | .error _ => s
  | .ok wanted =>
    let strike (d : Stored) : Stored := { d with isLive := d.isLive && !wanted d }
    { s with segments := s.segments.map fun segment => segment.map strike }

/-- The snapshot after committing batches of documents, each as one segment, and then deleting by
terms.  An empty batch makes no segment. -/
def build (schema : List Field) (batches : List (List (List (String × Value))))
    (deletions : List FieldTerm) : Snapshot :=
  let segments : List Segment := (batches.filter fun batch => !batch.isEmpty).map fun batch =>
    (batch.map fun values => ⟨values, true⟩).toArray
  let struck := deletions.foldl delete ⟨schema, segments⟩
  { struck with segments := struck.segments.filter fun segment => segment.any Stored.isLive }

end Snapshot

/-! ## §5 Queries -/

inductive Query where
  | all
  | nothing
  | term (filter : FieldTerm)
deriving DecidableEq, Repr

def Query.select (query : Query) (s : Snapshot) : Except Fault (Stored → Bool) :=
  match query with
  | all => .ok fun _ => true
  | nothing => .ok fun _ => false
  | term filter =>
    match s.field? filter.field with
    | none => .error (.search (.noField filter.field))
    | some field => Snapshot.termOf field filter

end Lineage.Index
