import Lineage.ByteSize.Printer
import Lineage.ByteSize.Reader
import Lineage.Json.Tree
import Lineage.Settings.Basic

/-!
# Settings as text

The JSON form of settings.  Every field may be left out and then has its default value.  The
memory limit is read as a number of bytes or as a size with a unit; it is written in the latter,
rounded form.
-/

namespace Lineage

/-! ## §1 Choices -/

def Mode.name : Mode → String
  | hits => "undup"
  | ancestors => "map_to_parent"

def Mode.ofName? : String → Option Mode
  | "undup" => some hits
  | "map_to_parent" => some ancestors
  | _ => none

def ScanStrategy.name : ScanStrategy → String
  | cached => "cached"
  | scan => "scan"

def ScanStrategy.ofName? : String → Option ScanStrategy
  | "cached" => some cached
  | "scan" => some scan
  | _ => none

/-- A size: a number of bytes below `2 ^ 64`, or a text. -/
def ByteSize.ofJson? : Json → Option ByteSize
  | .number literal => do
    let n ← Json.plainNat? literal
    if n ≤ greatest then some ⟨.ofNat n⟩ else none
  | json => json.text? >>= parse?

/-! ## §2 Settings -/

namespace Settings

/-- The names of the fields, in the order in which they are written. -/
def fieldNames : List String :=
  ["levels", "mode", "nested", "resilient", "filterStrategy", "forwardHits", "memoryLimit"]

/-- A field's value: the one given, which must be readable, or else its default. -/
def field? {α : Type} (read : Json → Option α) (default : α) : Option Json → Option α
  | none => some default
  | some given => read given

/-- A number of levels: any 64-bit number, whether or not it can be climbed. -/
def levels? (json : Json) : Option Nat := json.nat?.filter (· < UInt64.size)

def mode? (json : Json) : Option Mode := json.variant? >>= Mode.ofName?

def strategy? (json : Json) : Option ScanStrategy := json.variant? >>= ScanStrategy.ofName?

def ofJson? (json : Json) : Option Settings := do
  match ← json.record? fieldNames with
  | [levels, mode, nested, resilient, strategy, forwardHits, memoryLimit] =>
    return {
      levels := ← field? levels? default.levels levels
      mode := ← field? mode? default.mode mode
      nested := ← field? Json.bool? default.nested nested
      resilient := ← field? Json.bool? default.resilient resilient
      strategy := ← field? strategy? default.strategy strategy
      forwardHits := ← field? Json.bool? default.forwardHits forwardHits
      memoryLimit := ← field? ByteSize.ofJson? default.memoryLimit memoryLimit }
  | _ => none

/-- Read settings from a text and check that a pass can follow them. -/
def read (text : String) : Except Fault Settings :=
  match Json.parse? text >>= ofJson? with
  | none => .error ((Fault.ofCause .malformed).under "Failed to parse engine configuration")
  | some settings => do
    settings.validate
    return settings

def toJson (s : Settings) : Json :=
  .ofFields (fieldNames.zip
    [.ofNat s.levels, .ofText s.mode.name, .bool s.nested, .bool s.resilient,
      .ofText s.strategy.name, .bool s.forwardHits, .ofText s.memoryLimit.render])

def write (s : Settings) : String := s.toJson.render

end Settings

end Lineage
