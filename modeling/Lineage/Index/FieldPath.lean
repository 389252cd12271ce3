import Lineage.Index.Snapshot

/-!
# Field paths

A path names a field and a place below it, separated by a dot.  Field names may hold dots too, so a
path can be read in several ways: the whole path as a name comes first, and then the splits at its
dots, the longest name first.  A dot behind a backslash does not split.  The part before a split is
taken as a name just as it is written, and then without its backslashes.
-/

namespace Lineage.Index

namespace FieldPath

/-- The ways to split a path at a dot that does not stand behind a backslash, the shortest name
first; the dot belongs to neither part. -/
def splits : List Char → List (List Char × List Char)
  | [] => []
  | '\\' :: c :: rest => (splits rest).map fun (name, below) => ('\\' :: c :: name, below)
  | '.' :: rest => ([], rest) :: (splits rest).map fun (name, below) => ('.' :: name, below)
  | c :: rest => (splits rest).map fun (name, below) => (c :: name, below)

/-- A name as it is meant if a backslash only tells that the character behind it is part of the
name. -/
def unescape : List Char → List Char
  | [] => []
  | '\\' :: c :: rest => c :: unescape rest
  | c :: rest => c :: unescape rest

end FieldPath

/-- The field that a path names, with what the path says below it; of several readings the one
with the longest name. -/
def Snapshot.fieldAt? (s : Snapshot) (path : String) : Option (Field × List Char) :=
  match s.field? path with
  | some field => some (field, [])
  | none => (FieldPath.splits path.toList).reverse.findSome? fun (name, below) =>
    (s.field? (.ofList name) <|> s.field? (.ofList (FieldPath.unescape name))).map (·, below)

end Lineage.Index
