import Lineage.Address
import Lineage.Quoted.Basic

/-!
# Faults

Everything that can go wrong, told by its cause.  A cause belongs to one of four kinds; whether a
fault may be masked depends on the kind alone.  The wording of all causes stands here and nowhere
else.  On its way out a fault may be put under contexts, which change what is shown first but
never its kind.
-/

namespace Lineage

/-! ## §1 Causes -/

/-- What a pass needs and does not find when it is set up. -/
inductive ConfigurationProblem where
  /-- No level to climb although the hits are not nested. -/
  | noLevel
  | tooManyLevels (levels most : Nat)
  | noMemory
  /-- Nested hits without a way to find their main documents. -/
  | noMainDocuments
  /-- A level without ancestors in a partition that is given as a list. -/
  | noRelation (level : Level)
  | noAncestorFilter (level : Level)
  | noKeyColumn (level : Level)
  /-- A join chain with fewer key columns than the levels need. -/
  | fewKeyColumns (levels columns : Nat)
  | unknownField (name : String)
  /-- A key column that does not hold strings in a column. -/
  | notStringColumn (name : String)
  | unknownFilterField (name : String)
  /-- A problem that the surroundings state in their own words. -/
  | stated (text : String)
deriving DecidableEq, Repr

/-- What would outgrow its limit. -/
inductive GrowthProblem where
  | slots (wanted bytes limit : Nat)
  | row (key : UInt32) (rowBytes bytes limit : Nat)
  | table (bytes limit : Nat)
  /-- The terms of a column, which ordinals have to number. -/
  | terms (column : String) (count : Nat)
  /-- A problem that the surroundings state in their own words. -/
  | stated (text : String)
deriving DecidableEq, Repr

/-- What the index refuses. -/
inductive SearchProblem where
  /-- A term query on a field that is not indexed. -/
  | notIndexed (field : String)
  | noField (field : String)
  /-- Column access to a field that is not stored in a column. -/
  | notColumn (field : String)
  /-- A failure inside a running search, told by its full text. -/
  | internal (text : String)
deriving DecidableEq, Repr

/-- The cause of a fault. -/
inductive Cause where
  | configuration (problem : ConfigurationProblem)
  | growth (problem : GrowthProblem)
  | search (problem : SearchProblem)
  | sinkFull
  /-- Level-0 facts of two shapes brought together. -/
  | mixedFacts
  /-- A text that does not have the form its reader expects. -/
  | malformed
  /-- A segment whose hits cannot be assigned to buckets. -/
  | noBuckets (segment : SegmentId)
  /-- A cause that the surroundings state in their own words. -/
  | stated (text : String)
deriving DecidableEq, Repr

inductive FaultKind where
  | configuration
  | growth
  | search
  | other
deriving DecidableEq, Repr

/-- A cause and the contexts it was put under, outermost first. -/
structure Fault where
  cause : Cause
  contexts : List String
deriving DecidableEq, Repr

/-! ## §2 Wording -/

def ConfigurationProblem.text : ConfigurationProblem → String
  | noLevel => "at least one ancestor level is required for join aggregation"
  | tooManyLevels levels most => s!"{levels} levels requested, at most {most} are supported"
  | noMemory => "memory limit must be greater than zero"
  | noMainDocuments => "nested aggregation requires a main-document filter"
  | noRelation level => s!"no ancestor relation declared for level {level}"
  | noAncestorFilter level => s!"no ancestor filter configured for level {level}"
  | noKeyColumn level => s!"no key column configured for level {level}"
  | fewKeyColumns levels columns =>
    s!"{levels} levels need {levels + 1} key columns, join chain has {columns}"
  | unknownField name => s!"field '{name}' does not exist in the schema"
  | notStringColumn name => s!"field '{name}' must be a string fast field"
  | unknownFilterField name => s!"filter field '{name}' does not exist in the schema"
  | stated text => text

def GrowthProblem.text : GrowthProblem → String
  | slots wanted bytes limit =>
    s!"growing table to {wanted} keys needs {bytes} bytes, limit is {limit} bytes"
  | row key rowBytes bytes limit =>
    s!"growing row {key} to {rowBytes} bytes needs {bytes} bytes in total, limit is {limit} bytes"
  | table bytes limit => s!"level table holds {bytes} bytes, limit is {limit} bytes"
  | terms column count =>
    s!"fast field '{column}' has {count} distinct terms, more than a u32 ordinal can address"
  | stated text => text

def SearchProblem.text : SearchProblem → String
  | notIndexed field => s!"Schema error: 'Field {Quoted.quote field} is not indexed.'"
  | noField field => s!"The field does not exist: '{field}'"
  | notColumn field => s!"Schema error: 'Field {Quoted.quote field} is not a fast field.'"
  | internal text => s!"Internal error: '{text}'"

def Cause.text : Cause → String
  | configuration problem => s!"Configuration error: {problem.text}"
  | growth problem => s!"Growth failure: {problem.text}"
  | search problem => problem.text
  | sinkFull => "sink is full"
  | mixedFacts => "Cannot merge level-0 states built for different aggregation shapes"
  | malformed => "the text does not have the expected form"
  | noBuckets segment => s!"buckets of segment {segment} are unavailable"
  | stated text => text

/-! ## §3 Kinds and contexts -/

def Cause.kind : Cause → FaultKind
  | configuration _ => .configuration
  | growth _ => .growth
  | search _ => .search
  | _ => .other

namespace Fault

def ofCause (cause : Cause) : Fault := ⟨cause, []⟩

def configuration (problem : ConfigurationProblem) : Fault := ofCause (.configuration problem)

def growth (problem : GrowthProblem) : Fault := ofCause (.growth problem)

def search (problem : SearchProblem) : Fault := ofCause (.search problem)

/-- Put a fault under one more context. -/
def under (context : String) (fault : Fault) : Fault :=
  { fault with contexts := context :: fault.contexts }

/-- The kind of a fault is that of its cause, whatever contexts it stands under. -/
def kind (fault : Fault) : FaultKind := fault.cause.kind

def isConfiguration (fault : Fault) : Bool := fault.kind = .configuration

def isGrowth (fault : Fault) : Bool := fault.kind = .growth

/-- The outermost text: that of the last context, or of the cause if there is none. -/
def message (fault : Fault) : String := fault.contexts.headD fault.cause.text

/-- All texts, outermost first. -/
def fullText (fault : Fault) : String :=
  ": ".intercalate (fault.contexts ++ [fault.cause.text])

end Fault

end Lineage
