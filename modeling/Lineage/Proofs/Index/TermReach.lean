import Lineage.Index.Opening
import Lineage.Proofs.Index.Scanning
import Lineage.Proofs.Reach

/-!
# Reaching texts

The join over an index, said in terms of the texts that documents hold: no segments, no ordinals,
no order.  A partition that is opened over a snapshot reaches an ordinal exactly if the text that
the ordinal stands for is reached.

## Main statements

- `numberedKeys_of_partitionOver`: at every level, ordinals stand for the texts of the key column;
- `reaches_iff`: ordinals are reached exactly if their texts are.
-/

namespace Lineage.Index

/-- A document is stored somewhere in a snapshot, live or not. -/
def Snapshot.Stores (s : Snapshot) (d : Stored) : Prop := ∃ doc, s.stored? doc = some d

/-- Where documents can be addressed, those that are stored are those of the segments. -/
theorem Snapshot.stores_iff {s : Snapshot} {d : Stored} (h : s.Addressable) :
    s.Stores d ↔ ∃ segment ∈ s.segments, d ∈ segment := by
  constructor
  · rintro ⟨doc, hdoc⟩
    obtain ⟨segment, hsegment, hd⟩ := stored?_eq_some.1 hdoc
    exact ⟨segment, List.mem_of_getElem? hsegment, Array.mem_of_getElem? hd⟩
  · rintro ⟨segment, hsegment, hd⟩
    -- places are turned into addresses, which keep them as long as there are 32 bits for each
    obtain ⟨i, hi, hsegmenti⟩ := List.mem_iff_getElem.1 hsegment
    obtain ⟨k, hk, hdk⟩ := Array.mem_iff_getElem.1 hd
    have hsize := h.docs segment hsegment
    have hsegments := h.segments
    refine ⟨⟨.ofNat i, .ofNat k⟩, stored?_eq_some.2 ⟨segment, ?_, ?_⟩⟩
    · show s.segments[(UInt32.ofNat i).toNat]? = some segment
      rw [toNat_ofNat (by omega), List.getElem?_eq_getElem hi, hsegmenti]
    · show segment[(UInt32.ofNat k).toNat]? = some d
      rw [toNat_ofNat (by omega), Array.getElem?_eq_getElem hk, hdk]

namespace JoinChain

/-! ## §1 The join over texts -/

/-- A document holds a text in the key column of a level. -/
def HoldsKey (chain : JoinChain) (level : Level) (d : Stored) (t : String) : Prop :=
  ∃ column, chain.keyColumns[level]? = some column ∧ t ∈ d.columnTexts column

/-- A text is reached at a level from roots at level 0, through one live document for each level
that the filter of the level selects. -/
inductive Reaches (chain : JoinChain) (s : Snapshot) (roots : String → Prop) :
    Level → String → Prop where
  | root {t : String} (hroot : roots t) : Reaches chain s roots 0 t
  | join {level : Level} {t t' : String} {d : Stored} {filter : FieldTerm}
      (hbelow : Reaches chain s roots level t)
      (hfilter : chain.ancestorFilters[level]? = some filter) (hstored : s.Stores d)
      (hlive : d.isLive = true) (hholds : d.holds filter = true)
      (hlower : chain.HoldsKey level d t) (hupper : chain.HoldsKey (level + 1) d t') :
      Reaches chain s roots (level + 1) t'

/-- What is reached depends on the live documents alone, not on where they are stored. -/
theorem Reaches.mono {chain : JoinChain} {s s' : Snapshot} {roots roots' : String → Prop}
    (hdocs : ∀ d, d.isLive = true → s.Stores d → s'.Stores d)
    (hroots : ∀ t, roots t → roots' t) {level : Level} {t : String}
    (h : chain.Reaches s roots level t) : chain.Reaches s' roots' level t := by
  -- every document on the way is live, so it is stored in the other snapshot as well
  induction h with
  | root hroot => exact .root (hroots _ hroot)
  | join _ hfilter hstored hlive hholds hlower hupper ih =>
    exact .join ih hfilter (hdocs _ hlive hstored) hlive hholds hlower hupper

/-- The document whose texts a hit counts under: the hit itself or, if hits are nested, its main
document among those that the chain's filter finds. -/
def target (chain : JoinChain) (snapshot : Snapshot) (s : Settings) (hit : Doc) : Option Doc :=
  if s.nested then
    match chain.mainsFor s snapshot with
    | .ok (some mains) => mains.mainOf hit
    | _ => none
  else some hit

/-- The level-0 texts of a bucket: those of the documents that the hits assigned to it count
under. -/
def Roots (chain : JoinChain) (s : Snapshot) (target : Doc → Option Doc)
    (assigned : Doc → Bucket → Prop) (b : Bucket) (t : String) : Prop :=
  ∃ hit doc d, assigned hit b ∧ target hit = some doc ∧ s.stored? doc = some d ∧
    chain.HoldsKey 0 d t

/-- The texts that the hits assigned to a bucket reach at a level. -/
def reachedTexts (chain : JoinChain) (s : Snapshot) (target : Doc → Option Doc)
    (assigned : Doc → Bucket → Prop) (level : Level) (b : Bucket) : Set String :=
  {t | chain.Reaches s (chain.Roots s target assigned b) level t}

end JoinChain

/-! ## §2 Ordinals of texts -/

/-- The ordinals of a level stand for the texts of its key column. -/
structure NumberedKeys (p : Partition) (s : Snapshot) (chain : JoinChain) (level : Level)
    (n : TermNumbering) : Prop where
  inj : ∀ {t t' o}, n.ordinal? t = some o → n.ordinal? t' = some o → t = t'
  numbered : ∀ {d t}, s.Stores d → chain.HoldsKey level d t → ∃ o, n.ordinal? t = some o
  carries : ∀ {doc o}, p.Carries level doc o ↔
    ∃ d t, s.stored? doc = some d ∧ chain.HoldsKey level d t ∧ n.ordinal? t = some o

/-- The ancestors of a level are the live documents that its filter selects. -/
def FilteredScan (p : Partition) (s : Snapshot) (chain : JoinChain) (level : Level) : Prop :=
  ∀ doc, doc ∈ (p.scan (level + 1)).docs ↔
    ∃ filter d, chain.ancestorFilters[level]? = some filter ∧ s.stored? doc = some d ∧
      d.isLive = true ∧ d.holds filter = true

variable {snapshot : Snapshot} {chain : JoinChain} {s : Settings} {p : Partition}

/-- What an opened partition is made of. -/
theorem partitionOver_eq_ok (h : partitionOver snapshot chain s = .ok p) :
    ∃ columns keys scan mains, chain.columnsFor s = .ok columns ∧
      KeyColumns.ofNames snapshot columns = .ok keys ∧
      FilterScan.ofFilters snapshot (chain.ancestorFilters.take s.levels) s.strategy = .ok scan ∧
      chain.mainsFor s snapshot = .ok mains ∧
      p = ⟨keys.keys, scan.checkLevel, fun level => (scan.visit level).1,
        mains.map MainDocuments.mainOf⟩ := by
  obtain ⟨columns, hcolumns, hrest⟩ := Step.except_bind_eq_ok.1 h
  obtain ⟨keys, hkeys, hrest⟩ := Step.except_bind_eq_ok.1 hrest
  obtain ⟨scan, hscan, hrest⟩ := Step.except_bind_eq_ok.1 hrest
  obtain ⟨mains, hmains, hp⟩ := Step.except_bind_eq_ok.1 hrest
  exact ⟨columns, keys, scan, mains, hcolumns, hkeys, hscan, hmains, (Except.ok.inj hp).symm⟩

/-- The keys of an opened partition are the ordinals of its numberings, one for each level. -/
theorem keys_of_partitionOver (hlevels : 1 ≤ s.levels)
    (h : partitionOver snapshot chain s = .ok p) {level : Nat} (hlevel : level ≤ s.levels) :
    ∃ (column : String) (n : TermNumbering), chain.keyColumns[level]? = some column ∧
      n.Numbers snapshot column ∧ ∀ doc, p.keys level doc = .ok (n.ordinalsOf doc) := by
  obtain ⟨columns, keys, scan, mains, hcolumns, hkeys, -, -, rfl⟩ := partitionOver_eq_ok h
  obtain ⟨ns, hns, hofNames⟩ := Step.except_bind_eq_ok.1 hkeys
  cases hofNames
  -- there is one column more than levels
  have hdirect : s.isDirect = false := by
    simp [Settings.isDirect, Nat.ne_of_gt hlevels]
  unfold JoinChain.columnsFor at hcolumns
  rw [hdirect] at hcolumns
  simp only [Bool.false_eq_true, if_false] at hcolumns
  split at hcolumns
  case isTrue => cases hcolumns
  case isFalse hmany =>
    cases hcolumns
    have hplace : level < (chain.keyColumns.take (s.levels + 1)).length := by
      rw [List.length_take]
      omega
    -- each numbering is the one of the column in its place
    have hall := Step.forall₂_of_mapM_eq_ok hns
    have hplace' : level < ns.length := hall.length_eq ▸ hplace
    have hnumbering := hall.get hplace hplace'
    refine ⟨chain.keyColumns[level], ns[level], List.getElem?_eq_getElem (by omega),
      TermNumbering.numbers_of_ofField ?_, fun doc => ?_⟩
    · simpa using hnumbering
    · simp [KeyColumns.keys, List.getElem?_eq_getElem hplace']

theorem numberedKeys_of_partitionOver (hlevels : 1 ≤ s.levels)
    (h : partitionOver snapshot chain s = .ok p) {level : Nat} (hlevel : level ≤ s.levels) :
    ∃ n, NumberedKeys p snapshot chain level n := by
  obtain ⟨column, n, hcolumn, hnumbers, hkeys⟩ := keys_of_partitionOver hlevels h hlevel
  have hholds (d : Stored) (t : String) :
      chain.HoldsKey level d t ↔ t ∈ d.columnTexts column := by
    simp [JoinChain.HoldsKey, hcolumn]
  refine ⟨n, hnumbers.ordinal?_inj, ?_, ?_⟩
  · rintro d t ⟨doc, hdoc⟩ ht
    exact hnumbers.numbered doc d t hdoc ((hholds d t).1 ht)
  · intro doc o
    rw [Partition.carries_iff (hkeys doc), hnumbers.mem_ordinalsOf]
    simp only [hholds]

theorem filteredScan_of_partitionOver (haddr : snapshot.Addressable)
    (h : partitionOver snapshot chain s = .ok p) {level : Nat} (hlevel : level < s.levels) :
    FilteredScan p snapshot chain level := by
  obtain ⟨columns, keys, scan, mains, -, -, hscan, -, rfl⟩ := partitionOver_eq_ok h
  intro doc
  have hvisit := FilterScan.mem_visit haddr hscan level doc
  rw [List.getElem?_take_of_lt hlevel] at hvisit
  exact hvisit

theorem target_of_partitionOver (h : partitionOver snapshot chain s = .ok p) :
    p.target s = chain.target snapshot s := by
  obtain ⟨columns, keys, scan, mains, -, -, -, hmains, rfl⟩ := partitionOver_eq_ok h
  funext hit
  unfold Partition.target JoinChain.target
  rw [hmains]
  cases mains with
  | none => rfl
  | some mains => rfl

/-! ## §3 Ordinals are reached as their texts are -/

variable {rootOrdinals : Ordinal → Prop} {rootTexts : String → Prop}

/-- What is reached at a level is held by a stored document. -/
theorem exists_ordinal_of_reaches {level : Nat} {n : TermNumbering} {t : String}
    (hn : NumberedKeys p snapshot chain level n)
    (hroots : ∀ t, rootTexts t → ∃ d, snapshot.Stores d ∧ chain.HoldsKey 0 d t)
    (h : chain.Reaches snapshot rootTexts level t) : ∃ o, n.ordinal? t = some o := by
  -- a text at level 0 is that of a root, and one further up that of the last document joined
  cases h with
  | root hroot =>
    obtain ⟨d, hstored, hholds⟩ := hroots _ hroot
    exact hn.numbered hstored hholds
  | join _ _ hstored _ _ _ hupper => exact hn.numbered hstored hupper

/-- The ordinals reached are those of the texts reached, level by level. -/
theorem reaches_iff
    (hkeys : ∀ level : Nat, level ≤ s.levels → ∃ n, NumberedKeys p snapshot chain level n)
    (hscan : ∀ level : Nat, level < s.levels → FilteredScan p snapshot chain level)
    (hroots : ∀ n, NumberedKeys p snapshot chain 0 n → ∀ o,
      rootOrdinals o ↔ ∃ t, rootTexts t ∧ n.ordinal? t = some o)
    {level : Nat} (hlevel : level ≤ s.levels) {n : TermNumbering}
    (hn : NumberedKeys p snapshot chain level n) (o : Ordinal) :
    p.Reaches rootOrdinals level o ↔
      ∃ t, chain.Reaches snapshot rootTexts level t ∧ n.ordinal? t = some o := by
  -- the numbering may be another one at each level
  induction level generalizing n o with
  | zero =>
    rw [Partition.reaches_zero, hroots n hn]
    constructor
    · rintro ⟨t, ht, ho⟩
      exact ⟨t, .root ht, ho⟩
    · rintro ⟨t, ht, ho⟩
      cases ht with
      | root ht => exact ⟨t, ht, ho⟩
  | succ level ih =>
    obtain ⟨m, hm⟩ := hkeys level (by omega)
    have hbelow := ih (by omega) hm
    constructor
    · intro h
      cases h with
      | join hlow hdoc hlower hupper =>
        obtain ⟨t, ht, hot⟩ := (hbelow _).1 hlow
        obtain ⟨filter, d, hfilter, hd, hlive, hholds⟩ := (hscan level hlevel _).1 hdoc
        obtain ⟨d₁, t₁, hd₁, ht₁, ho₁⟩ := hm.carries.1 hlower
        obtain ⟨d₂, t₂, hd₂, ht₂, ho₂⟩ := hn.carries.1 hupper
        -- one document, and one text for the ordinal in the middle
        obtain rfl : d₁ = d := Option.some.inj (hd₁.symm.trans hd)
        obtain rfl : d₂ = d₁ := Option.some.inj (hd₂.symm.trans hd)
        obtain rfl : t₁ = t := hm.inj ho₁ hot
        exact ⟨t₂, .join ht hfilter ⟨_, hd⟩ hlive hholds ht₁ ht₂, ho₂⟩
    · rintro ⟨t', h, ho⟩
      cases h with
      | join ht hfilter hstored hlive hholds hlower hupper =>
        obtain ⟨doc, hd⟩ := hstored
        -- the text in the middle is held by a document, so it has an ordinal
        obtain ⟨o₁, ho₁⟩ := hm.numbered ⟨doc, hd⟩ hlower
        exact .join ((hbelow o₁).2 ⟨_, ht, ho₁⟩)
          ((hscan level hlevel doc).2 ⟨_, _, hfilter, hd, hlive, hholds⟩)
          (hm.carries.2 ⟨_, _, hd, hlower, ho₁⟩) (hn.carries.2 ⟨_, _, hd, hupper, ho⟩)

end Lineage.Index
