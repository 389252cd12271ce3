import Lineage.Fault
import Lineage.Index.JoinChain.Basic
import Lineage.Json.Tree

/-!
# Join chains as text

The JSON form of a join chain.  The key columns must be given; there are no filters where none are
given, and a main-document filter may be given as null.
-/

namespace Lineage.Index

namespace FieldTerm

def fieldNames : List String := ["field", "value"]

/-- The filter that a JSON value writes; both fields must be given. -/
def ofJson? (json : Json) : Option FieldTerm := do
  match ← json.record? fieldNames with
  | [some field, some value] => return ⟨← field.text?, ← value.text?⟩
  | _ => none

def toJson (f : FieldTerm) : Json :=
  .ofFields (fieldNames.zip [.ofText f.field, .ofText f.term])

end FieldTerm

namespace JoinChain

/-- The names of the fields, in the order in which they are written. -/
def fieldNames : List String := ["keyColumns", "ancestorFilters", "mainDocumentFilter"]

/-- The items of an array, each of which must be readable. -/
def listOf? {α : Type} (read : Json → Option α) (json : Json) : Option (List α) := do
  (← json.items?).mapM read

/-- A main-document filter, or null for none. -/
def filterOrNull? : Json → Option (Option FieldTerm)
  | .null => some none
  | json => (FieldTerm.ofJson? json).map some

/-- The join chain that a JSON value writes. -/
def ofJson? (json : Json) : Option JoinChain := do
  match ← json.record? fieldNames with
  | [some columns, filters, main] =>
    let keyColumns ← listOf? Json.text? columns
    let ancestorFilters ← (filters.map (listOf? FieldTerm.ofJson?)).getD (some [])
    let mainDocumentFilter ← (main.map filterOrNull?).getD (some none)
    return { keyColumns, ancestorFilters, mainDocumentFilter }
  | _ => none

def read (text : String) : Except Fault JoinChain :=
  match Json.parse? text >>= ofJson? with
  | none => .error ((Fault.ofCause .malformed).under "Failed to parse join chain config")
  | some chain => .ok chain

def toJson (c : JoinChain) : Json :=
  .ofFields (fieldNames.zip
    [.array (c.keyColumns.map .ofText), .array (c.ancestorFilters.map FieldTerm.toJson),
      (c.mainDocumentFilter.map FieldTerm.toJson).getD .null])

def write (c : JoinChain) : String := c.toJson.render

end JoinChain

end Lineage.Index
