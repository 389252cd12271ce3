import Lineage.ByteSize.Basic
import Lineage.Fault

/-!
# Settings

What a pass is asked to do, fixed before it starts.  `validate` is the check that every pass makes
first; it looks at the settings alone.
-/

namespace Lineage

/-- Which documents are handed on while ancestors are counted. -/
inductive Mode where
  /-- The hits themselves, once per bucket. -/
  | hits
  /-- The ancestor documents reached at the last level, once per bucket. -/
  | ancestors
deriving DecidableEq, Repr, Inhabited

/-- How the documents that a filter selects are found; the answers are the same. -/
inductive ScanStrategy where
  | cached
  | scan
deriving DecidableEq, Repr, Inhabited

/-- What a pass is asked to do. -/
structure Settings where
  levels : Nat
  mode : Mode
  /-- Whether hits are nested documents, which stand for their main documents. -/
  nested : Bool
  /-- Whether a missing relation gives an empty answer instead of a fault. -/
  resilient : Bool
  strategy : ScanStrategy
  /-- Whether documents are handed on at all. -/
  forwardHits : Bool
  /-- The limit on the bytes of every single table. -/
  memoryLimit : ByteSize
deriving DecidableEq, Repr

namespace Settings

/-- The most levels that can be climbed. -/
def mostLevels : Nat := 32

/-- The settings that hold where nothing is said. -/
def default : Settings where
  levels := 1
  mode := .hits
  nested := false
  resilient := false
  strategy := .cached
  forwardHits := false
  memoryLimit := .megabytes 500

instance : Inhabited Settings := ⟨default⟩

/-- Whether main documents are counted directly: hits are nested and there is no level to climb. -/
def isDirect (s : Settings) : Bool := s.nested && s.levels = 0

def limit (s : Settings) : Nat := s.memoryLimit.bytes.toNat

/-- Refuse settings that no pass can follow. -/
def validate (s : Settings) : Except Fault Unit :=
  if s.levels = 0 ∧ ¬s.nested then .error (.configuration .noLevel)
  else if mostLevels < s.levels then .error (.configuration (.tooManyLevels s.levels mostLevels))
  else if s.limit = 0 then .error (.configuration .noMemory)
  else .ok ()

end Settings

end Lineage
