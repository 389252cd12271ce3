import Lineage.Index.SearchPass
import Lineage.Proofs.Index.Columns
import Lineage.Proofs.JoinCounts

/-!
# Partitions that do not open

What the schema or the join chain lacks keeps a partition from opening, and a resilient pass is to
be degraded then.  Every fault but one tells a configuration problem: a key column that is missing
or does not hold texts, a filter of a missing field, a chain that is too short.  A filter of a field
that is there but is not indexed is refused by the index itself, in its own words, and that fault is
not masked.

## Main statements

- `lacks_of_partitionOver`: every way in which a partition does not open;
- `SearchPass.start_of_error`: what a search makes of a partition that does not open;
- `SearchPass.start_unopened`: both together.
-/

namespace Lineage.Index

/-! ## §1 What a partition may lack -/

/-- The key columns that a pass opens: one more than it has levels, and none where main documents
are counted. -/
def JoinChain.columnsInUse (chain : JoinChain) (s : Settings) : List String :=
  if s.isDirect then [] else chain.keyColumns.take (s.levels + 1)

/-- The filters that a pass looks up: one for each level and, if hits are nested, the one for main
documents. -/
def JoinChain.filtersInUse (chain : JoinChain) (s : Settings) : List FieldTerm :=
  chain.ancestorFilters.take s.levels ++ if s.nested then chain.mainDocumentFilter.toList else []

/-- What keeps a partition from opening, and the fault that tells it. -/
inductive Lacks (snapshot : Snapshot) (chain : JoinChain) (s : Settings) : Fault → Prop where
  | keyColumns (hdirect : s.isDirect = false) (hfew : chain.keyColumns.length ≤ s.levels) :
      Lacks snapshot chain s
        (.configuration (.fewKeyColumns s.levels chain.keyColumns.length))
  | column {name : String} (hused : name ∈ chain.columnsInUse s)
      (hnone : snapshot.field? name = none) :
      Lacks snapshot chain s (.configuration (.unknownField name))
  | texts {name : String} {field : Field} (hused : name ∈ chain.columnsInUse s)
      (hfield : snapshot.field? name = some field)
      (htexts : (field.isText && field.isColumn) = false) :
      Lacks snapshot chain s (.configuration (.notStringColumn name))
  | filterField {filter : FieldTerm} (hused : filter ∈ chain.filtersInUse s)
      (hnone : snapshot.field? filter.field = none) :
      Lacks snapshot chain s (.configuration (.unknownFilterField filter.field))
  | terms {filter : FieldTerm} {field : Field} (hused : filter ∈ chain.filtersInUse s)
      (hfield : snapshot.field? filter.field = some field) (hindexed : field.isIndexed = false) :
      Lacks snapshot chain s (.search (.notIndexed filter.field))
  /-- The one cause that is not in the schema or the chain: there are too many terms to number. -/
  | numbers {name : String} (hused : name ∈ chain.columnsInUse s) (count : Nat) :
      Lacks snapshot chain s (.growth (.terms name count))

variable {snapshot : Snapshot} {chain : JoinChain} {s : Settings} {fault : Fault}

/-- Of what a partition may lack, only a filter's terms and numbers are not told as a configuration
problem. -/
theorem Lacks.isConfiguration_iff (h : Lacks snapshot chain s fault) :
    fault.isConfiguration = true ↔
      fault.isGrowth = false ∧ ∀ name, fault ≠ .search (.notIndexed name) := by
  -- the last two causes are the exceptions, and each of them is excluded on the right
  cases h with
  | keyColumns | column | texts | filterField =>
    refine iff_of_true rfl ⟨rfl, fun name h => ?_⟩
    cases h
  | terms => exact iff_of_false (fun h => by cases h) fun h => h.2 _ rfl
  | numbers => exact iff_of_false (fun h => by cases h) fun h => by cases h.1

/-! ## §2 Key columns -/

theorem columnsFor_eq_error (h : chain.columnsFor s = .error fault) :
    Lacks snapshot chain s fault := by
  unfold JoinChain.columnsFor at h
  split at h
  case isTrue => cases h
  case isFalse hdirect =>
    split at h
    case isFalse => cases h
    case isTrue hfew =>
      cases h
      exact .keyColumns (Bool.eq_false_iff.2 hdirect) hfew

theorem columnsFor_eq_ok {columns : List String} (h : chain.columnsFor s = .ok columns) :
    columns = chain.columnsInUse s := by
  unfold JoinChain.columnsFor at h
  unfold JoinChain.columnsInUse
  -- no columns where main documents are counted, else the first ones, if there are enough
  split at h
  case isTrue hdirect =>
    cases h
    rw [if_pos hdirect]
  case isFalse hjoin =>
    split at h
    case isTrue => cases h
    case isFalse =>
      cases h
      rw [if_neg hjoin]

/-- Once it is known to hold texts in a column, a field can be read in every segment. -/
theorem ofField_eq_error {name : String} (hused : name ∈ chain.columnsInUse s)
    (h : TermNumbering.ofField snapshot name = .error fault) : Lacks snapshot chain s fault := by
  -- the schema is asked before any segment is read
  rcases Step.except_bind_eq_error.1 h with hensure | ⟨⟨⟩, hensure, hbuild⟩
  · unfold Snapshot.ensureStringColumn at hensure
    split at hensure
    case h_1 hnone =>
      cases hensure
      exact .column hused hnone
    case h_2 field hfield =>
      split at hensure
      case isTrue => cases hensure
      case isFalse htexts =>
        cases hensure
        exact .texts hused hfield (Bool.eq_false_iff.2 htexts)
  · -- the columns can be read, so there can only be too many terms
    have hcolumns := columns_of_ensureStringColumn hensure
    rcases Step.except_bind_eq_error.1 hbuild with hread | ⟨columns, -, hnumbered⟩
    · cases hcolumns.symm.trans hread
    · unfold TermNumbering.ofColumns at hnumbered
      simp only at hnumbered
      split at hnumbered
      case isFalse => cases hnumbered
      case isTrue =>
        cases hnumbered
        exact .numbers hused _

/-! ## §3 Filters -/

theorem select_eq_error {filter : FieldTerm} (hused : filter ∈ chain.filtersInUse s)
    (h : snapshot.select filter = .error fault) : Lacks snapshot chain s fault := by
  unfold Snapshot.select at h
  split at h
  case h_1 hnone =>
    cases h
    exact .filterField hused hnone
  case h_2 field hfield =>
    unfold Snapshot.termOf at h
    split at h
    case isTrue => cases h
    case isFalse hindexed =>
      cases h
      exact .terms hused hfield (Bool.eq_false_iff.2 hindexed)

theorem ofFilters_eq_error
    (h : FilterScan.ofFilters snapshot (chain.ancestorFilters.take s.levels) s.strategy =
      .error fault) : Lacks snapshot chain s fault := by
  rcases Step.except_bind_eq_error.1 h with hselected | ⟨selected, -, hpure⟩
  · obtain ⟨filter, hfilter, hselect⟩ := Step.exists_of_mapM_eq_error hselected
    exact select_eq_error (List.mem_append_left _ hfilter) hselect
  · cases hpure

theorem mainsFor_eq_error (h : chain.mainsFor s snapshot = .error fault) :
    Lacks snapshot chain s fault := by
  unfold JoinChain.mainsFor at h
  split at h
  case h_2 => cases h
  case h_1 filter hfilter =>
    split at h
    case isFalse => cases h
    case isTrue hnested =>
      have hused : filter ∈ chain.filtersInUse s := by
        simp [JoinChain.filtersInUse, hnested, hfilter]
      cases hmains : MainDocuments.ofFilter snapshot filter with
      | ok mains =>
        rw [hmains] at h
        cases h
      | error fault' =>
        rw [hmains] at h
        cases h
        -- looking the filter up can fail, collecting the documents it selects cannot
        rcases Step.except_bind_eq_error.1 hmains with hselect | ⟨wanted, -, hpure⟩
        · exact select_eq_error hused hselect
        · cases hpure

/-! ## §4 Partitions -/

/-- A partition that does not open lacks something, and the fault tells what. -/
theorem lacks_of_partitionOver (h : partitionOver snapshot chain s = .error fault) :
    Lacks snapshot chain s fault := by
  -- in the order in which a partition is opened
  rcases Step.except_bind_eq_error.1 h with hcolumns | ⟨columns, hcolumns, hrest⟩
  · exact columnsFor_eq_error hcolumns
  rcases Step.except_bind_eq_error.1 hrest with hkeys | ⟨keys, -, hrest⟩
  · rcases Step.except_bind_eq_error.1 hkeys with hfields | ⟨numberings, -, hpure⟩
    · obtain ⟨name, hname, hfield⟩ := Step.exists_of_mapM_eq_error hfields
      exact ofField_eq_error (columnsFor_eq_ok hcolumns ▸ hname) hfield
    · cases hpure
  rcases Step.except_bind_eq_error.1 hrest with hscan | ⟨scan, -, hrest⟩
  · exact ofFilters_eq_error hscan
  rcases Step.except_bind_eq_error.1 hrest with hmains | ⟨mains, -, hpure⟩
  · exact mainsFor_eq_error hmains
  · cases hpure

namespace SearchPass

variable {bucketing : Bucketing} {j : Journal}

/-- Under valid settings a fault of the partition is masked and counted, if it is one of the
configuration and the settings are resilient, and comes out as it is otherwise. -/
theorem start_of_error (hvalid : s.validate = .ok ()) :
    start s (.error fault) bucketing j =
      if s.resilient ∧ fault.isConfiguration then
        .ok ⟨s, none, bucketing⟩ { j with statistics := j.statistics.addDegraded }
      else .error fault j := by
  -- valid settings pass their own check, so what is settled is the partition's fault
  have hsettle := settle_of_valid hvalid (.error fault) j
  simp only [show checked s (.error fault) = .error fault from rfl] at hsettle
  unfold start
  split at hsettle
  case isTrue hmasked => rw [if_pos hmasked, Step.bind_of_ok hsettle]; rfl
  case isFalse hopen => rw [if_neg hopen, Step.bind_of_error hsettle]

/-- Whenever the schema or the chain keeps a partition from opening, the pass is degraded. -/
def AlwaysDegrades (snapshot : Snapshot) (chain : JoinChain) (s : Settings) : Prop :=
  ∀ fault, partitionOver snapshot chain s = .error fault → fault.isGrowth = false →
    fault.isConfiguration = true ∧ ∀ bucketing j, ∃ pass k,
      start s (partitionOver snapshot chain s) bucketing j = .ok pass k ∧ pass.isDegraded = true

/-- A resilient pass over a partition that does not open.  The fault tells what is lacking; it is
one of the configuration, unless there are too many terms to number or a filter asks for a field
that is not indexed; and a pass is degraded, and counted as such, exactly for a fault of the
configuration.  So schema and chain are always masked exactly if no such filter comes up. -/
theorem start_unopened (hvalid : s.validate = .ok ()) (hresilient : s.resilient = true)
    (h : partitionOver snapshot chain s = .error fault) :
    Lacks snapshot chain s fault ∧
    (fault.isConfiguration = true ↔
      fault.isGrowth = false ∧ ∀ name, fault ≠ .search (.notIndexed name)) ∧
    (∀ bucketing j, start s (partitionOver snapshot chain s) bucketing j =
      if fault.isConfiguration then
        .ok ⟨s, none, bucketing⟩ { j with statistics := j.statistics.addDegraded }
      else .error fault j) ∧
    (AlwaysDegrades snapshot chain s ↔ ∀ name, fault ≠ .search (.notIndexed name)) := by
  have hlacks := lacks_of_partitionOver h
  have hstart (bucketing : Bucketing) (j : Journal) :
      start s (partitionOver snapshot chain s) bucketing j =
        if fault.isConfiguration then
          .ok ⟨s, none, bucketing⟩ { j with statistics := j.statistics.addDegraded }
        else .error fault j := by
    rw [h, start_of_error hvalid]
    simp only [hresilient, true_and]
  refine ⟨hlacks, hlacks.isConfiguration_iff, hstart, ?_⟩
  constructor
  · -- the fault itself tells whether it may be masked, and it is the only one there is
    rintro hdegrades name rfl
    obtain ⟨hconfiguration, -⟩ := hdegrades _ h rfl
    cases hconfiguration
  · intro hindexed fault' h' hgrowth
    obtain rfl : fault = fault' := Except.error.inj (h.symm.trans h')
    have hconfiguration := hlacks.isConfiguration_iff.2 ⟨hgrowth, hindexed⟩
    refine ⟨hconfiguration, fun bucketing j => ?_⟩
    rw [hstart, if_pos hconfiguration]
    exact ⟨_, _, rfl, rfl⟩

/-- A document that is its own ancestor. -/
def shelf : Snapshot where
  schema := [⟨"of", true, true, true⟩, ⟨"kind", true, false, true⟩]
  segments := [#[⟨[("of", .text "a"), ("kind", .text "x")], true⟩]]

/-- Ancestors are to be found by a field that is not indexed. -/
def unsearchable : JoinChain := ⟨["of", "of"], [⟨"kind", "x"⟩], none⟩

/-- What is missing is to be masked. -/
def forgiving : Settings := { Settings.default with resilient := true }

/-- Faults can be compared where partitions cannot. -/
private def fault? {α : Type} : Except Fault α → Option Fault
  | .ok _ => none
  | .error fault => some fault

private theorem partitionOver_shelf :
    partitionOver shelf unsearchable forgiving = .error (.search (.notIndexed "kind")) := by
  -- partitions hold functions, so only the fault is evaluated
  have hfault : fault? (partitionOver shelf unsearchable forgiving) =
      some (.search (.notIndexed "kind")) := by
    decide +kernel
  cases hopened : partitionOver shelf unsearchable forgiving with
  | ok p =>
    rw [hopened] at hfault
    cases hfault
  | error fault =>
    rw [hopened] at hfault
    rw [Option.some.inj hfault]

/-- A resilient pass fails for want of an index on a field of the chain. -/
theorem not_alwaysDegrades_shelf : forgiving.validate = .ok () ∧ forgiving.resilient = true ∧
    ¬AlwaysDegrades shelf unsearchable forgiving := by
  refine ⟨rfl, rfl, fun hdegrades => ?_⟩
  obtain ⟨hconfiguration, -⟩ := hdegrades _ partitionOver_shelf rfl
  cases hconfiguration

/-- The chain lacks a filter that can be looked up, and the fault comes out as it is. -/
theorem start_unopened_shelf :
    Lacks shelf unsearchable forgiving (.search (.notIndexed "kind")) ∧
    start forgiving (partitionOver shelf unsearchable forgiving) .single (.start .unlimited) =
      .error (.search (.notIndexed "kind")) (.start .unlimited) := by
  obtain ⟨hlacks, -, hstart, -⟩ := start_unopened rfl rfl partitionOver_shelf
  exact ⟨hlacks, hstart .single (.start .unlimited)⟩

end SearchPass

end Lineage.Index
