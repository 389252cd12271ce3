import Lineage.Proofs.LinkTable.History

/-!
# Link tables are finite maps

Seen from outside, a link table is a finite map from 32-bit keys to finite sets of 32-bit numbers.
Every call that answers changes that map in one place, or in the places of another one, and all
that a table can be asked is answered as the map would answer it.  Slots, spare storage and growth
do not show.

## Main statements

- `WellFormed.shows`: what a table can be asked, by its rows as sets;
- `rowSets_insert`, `rowSets_addRow`, `rowSets_merge`, `rowSets_reserve`, `rowSets_amend`: what
  calls do to the rows as sets;
- `ChangesOnly`: the rows that a call leaves as they are, bit for bit;
- `History.shows_rows`: all of this, for any history of calls that answer.
-/

namespace Lineage

/-! ## §1 Finite maps -/

/-- A finite map from keys to sets.  A key without a set is not one with an empty set. -/
abbrev Rows := UInt32 → Option (Finset UInt32)

namespace Rows

/-- The set of a key, without members if there is none. -/
def members (m : Rows) (key : UInt32) : Finset UInt32 := (m key).getD ∅

/-- Give a key a set, in place of the one that it has. -/
def put (m : Rows) (key : UInt32) (set : Finset UInt32) : Rows :=
  Function.update m key (some set)

/-- The keys of both maps, each with what it has in either. -/
def merge (m other : Rows) : Rows := fun key => (m key).merge (· ∪ ·) (other key)

end Rows

namespace LinkTable

/-- The rows that the table ought to have, if all calls answer. -/
def History.rows : History → Rows
  | .new _ => fun _ => none
  | .clone h => h.rows
  | .insert h key bit => h.rows.put key (Insert.insert bit (h.rows.members key))
  | .addRow h key bits => h.rows.put key (h.rows.members key ∪ bits.members)
  | .merge h other => h.rows.merge other.rows
  | .reserve h _ => h.rows
  | .amend h key writes => h.rows.put key (h.rows.members key ∪ WordSet.brought writes)

/-- All calls have answered, those on tables that were merged in included. -/
def History.Succeeds : History → Prop
  | .new _ => True
  | .clone h => h.Succeeds
  | .insert h key bit => h.Succeeds ∧ ((LinkTable.insert key bit).result h.table).isOk
  | .addRow h key bits => h.Succeeds ∧ ((LinkTable.addRow key bits.set).result h.table).isOk
  | .merge h other =>
    h.Succeeds ∧ other.Succeeds ∧ ((LinkTable.merge other.table).result h.table).isOk
  | .reserve h wanted => h.Succeeds ∧ ((LinkTable.reserve wanted).result h.table).isOk
  | .amend h key writes =>
    h.Succeeds ∧ ((LinkTable.amend key (WordSet.applyAll writes)).result h.table).isOk

/-- Carrying out the calls tells whether all of them answer. -/
instance History.decidableSucceeds : (h : History) → Decidable h.Succeeds
  | .new _ => .isTrue trivial
  | .clone h => h.decidableSucceeds
  | .insert h _ _ | .addRow h _ _ | .reserve h _ | .amend h _ _ =>
    have := h.decidableSucceeds
    inferInstanceAs (Decidable (_ ∧ _))
  | .merge h other =>
    have := h.decidableSucceeds
    have := other.decidableSucceeds
    inferInstanceAs (Decidable (_ ∧ _ ∧ _))

/-- All that a table can be asked is answered as a finite map would answer it. -/
structure Shows (t : LinkTable) (m : Rows) : Prop where
  row : ∀ key, Option.Rel WordSet.Shows (t.row? key) (m key)
  mem_toList : ∀ key row, (key, row) ∈ t.toList ↔ t.row? key = some row
  ascending : t.toList.Pairwise fun a b => a.1 < b.1
  size : t.size = {key | m key ≠ none}.ncard
  isEmpty : t.isEmpty = true ↔ ∀ key, m key = none
  maxKey? : ∀ key, t.maxKey? = some key ↔ m key ≠ none ∧ ∀ k, m k ≠ none → k ≤ key
  maxKey?_none : t.maxKey? = none ↔ ∀ key, m key = none
  maxMember? : ∀ bit, t.maxMember? = some bit ↔
    (∃ key, bit ∈ m.members key) ∧ ∀ key, ∀ b ∈ m.members key, b ≤ bit
  maxMember?_none : t.maxMember? = none ↔ ∀ key, m.members key = ∅
  linkCount : t.linkCount = {link : UInt32 × UInt32 | link.2 ∈ m.members link.1}.ncard

end LinkTable

/-! ## §2 Rows as sets -/

/-- The members as a finite set. -/
def WordSet.members (s : WordSet) : Finset UInt32 := s.toList.toFinset

theorem WordSet.Bounded.mem_members {s : WordSet} (hs : s.Bounded) {b : UInt32} :
    b ∈ s.members ↔ b ∈ s := by
  rw [WordSet.members, List.mem_toFinset, mem_toList hs]

namespace LinkTable

variable {t u : LinkTable}

/-- The rows of a table as a finite map. -/
def rowSets (t : LinkTable) : Rows := fun key => (t.row? key).map WordSet.members

theorem rowSets_eq_none_iff {key : UInt32} : t.rowSets key = none ↔ t.row? key = none :=
  Option.map_eq_none_iff

theorem members_rowSets (t : LinkTable) (key : UInt32) :
    t.rowSets.members key = (t.row key).members := by
  unfold Rows.members rowSets row
  cases t.row? key with
  | none => rfl
  | some row => rfl

theorem WellFormed.mem_rowSets (h : t.WellFormed) {key bit : UInt32} :
    bit ∈ t.rowSets.members key ↔ t.Links key bit := by
  rw [members_rowSets, (h.rows key).mem_members]
  exact Iff.rfl

/-! ## §3 What a table tells -/

private theorem max?_eq_some_iff {xs : List UInt32} {m : UInt32} :
    xs.max? = some m ↔ m ∈ xs ∧ ∀ x ∈ xs, x ≤ m := by
  -- the library knows greatest members of lists under laws that are stated here for 32-bit numbers
  have hmax (a b : UInt32) : max a b = if a ≤ b then b else a := rfl
  have : Std.LawfulOrderMax UInt32 :=
    { max_eq_or := fun a b => by
        rw [hmax]
        split <;> simp
      max_le_iff := fun a b c => by
        rw [hmax]
        simp only [UInt32.le_iff_toNat_le]
        split <;> omega }
  exact List.max?_eq_some_iff

/-- The last number of an ascending list is the greatest. -/
private theorem getLast?_eq_some_iff {xs : List UInt32} (h : xs.Pairwise (· < ·)) {m : UInt32} :
    xs.getLast? = some m ↔ m ∈ xs ∧ ∀ x ∈ xs, x ≤ m := by
  have hlast {m : UInt32} (hm : xs.getLast? = some m) : m ∈ xs ∧ ∀ x ∈ xs, x ≤ m := by
    obtain ⟨ys, rfl⟩ := List.getLast?_eq_some_iff.1 hm
    refine ⟨List.mem_append_right ys (List.mem_singleton_self m), fun x hx => ?_⟩
    rcases List.mem_append.1 hx with hx | hx
    · have hlt := (List.pairwise_append.1 h).2.2 x hx m (List.mem_singleton_self m)
      exact UInt32.le_of_lt hlt
    · rw [List.mem_singleton.1 hx]
      exact UInt32.le_refl m
  refine ⟨hlast, ?_⟩
  rintro ⟨hm, hgreatest⟩
  -- a list with a greatest member has a last one, and two greatest members are the same
  cases hfound : xs.getLast? with
  | none => simp [List.getLast?_eq_none_iff.1 hfound] at hm
  | some x =>
    obtain ⟨hx, habove⟩ := hlast hfound
    rw [UInt32.le_antisymm (hgreatest x hx) (habove m hm)]

/-- The keys in the order of the listing. -/
private theorem mem_keys (h : t.WellFormed) {key : UInt32} :
    key ∈ t.toList.map Prod.fst ↔ t.rowSets key ≠ none := by
  rw [Ne, rowSets_eq_none_iff, ← Ne, Option.ne_none_iff_exists']
  simp only [List.mem_map, Prod.exists, exists_and_right, exists_eq_right, LinkTable.mem_toList h]

private theorem keys_pairwise_lt (h : t.WellFormed) :
    (t.toList.map Prod.fst).Pairwise (· < ·) :=
  List.pairwise_map.2 (toList_pairwise_lt h)

/-- As many rows are counted as are listed. -/
private theorem size_eq_length (h : t.WellFormed) : t.size = t.toList.length := by
  -- the places that slots are listed with make no difference to their number
  have hslots : t.rows.toList.countP Option.isSome =
      t.rows.toList.zipIdx.countP fun slot => slot.1.isSome := by
    conv_lhs => rw [← List.zipIdx_map_fst 0 t.rows.toList]
    rw [List.countP_map]
    rfl
  rw [h.size, hslots, toList, List.length_filterMap_eq_countP]
  simp only [Option.isSome_map]

private theorem mem_filterMap_max? (h : t.WellFormed) {bit : UInt32} :
    bit ∈ t.toList.filterMap (fun entry => entry.2.max?) ↔
      ∃ key row, t.row? key = some row ∧ row.max? = some bit := by
  simp only [List.mem_filterMap, Prod.exists, LinkTable.mem_toList h]

/-- The links are listed once each. -/
private theorem nodup_links (h : t.WellFormed) : t.links.Nodup := by
  unfold links List.Nodup
  rw [List.pairwise_flatMap]
  -- the links of one row differ in their members, those of two rows in their keys
  constructor
  · rintro ⟨key, row⟩ hentry
    have hbounded := h.bounded_of_row? ((LinkTable.mem_toList h).1 hentry)
    apply List.Nodup.map _ (WordSet.toList_nodup hbounded)
    intro bit bit' heq
    exact (Prod.mk.inj heq).2
  · apply (toList_pairwise_lt h).imp
    intro entry entry' hlt link hlink link' hlink' heq
    obtain ⟨bit, -, rfl⟩ := List.mem_map.1 hlink
    obtain ⟨bit', -, rfl⟩ := List.mem_map.1 hlink'
    exact absurd (Prod.mk.inj heq).1 (UInt32.ne_of_lt hlt)

theorem linkCount_eq_length (t : LinkTable) : t.linkCount = t.links.length := by
  unfold linkCount links
  rw [List.length_flatMap]
  simp only [List.length_map, WordSet.cardinality_eq_length]
  rfl

/-- Of a well-formed table it is enough to know its rows as sets. -/
theorem WellFormed.shows (h : t.WellFormed) : t.Shows t.rowSets where
  row key := by
    unfold rowSets
    cases hrow : t.row? key with
    | none => exact .none
    | some row =>
      have hbounded := h.bounded_of_row? hrow
      exact .some (hbounded.shows fun b => hbounded.mem_members.symm)
  mem_toList key row := LinkTable.mem_toList h
  ascending := toList_pairwise_lt h
  size := by
    have hset : {key | t.rowSets key ≠ none} = ((t.toList.map Prod.fst).toFinset : Set UInt32) := by
      ext key
      rw [List.coe_toFinset]
      exact (mem_keys h).symm
    -- ascending keys are distinct, so as many rows are listed as keys have one
    have hnodup : (t.toList.map Prod.fst).Nodup :=
      (keys_pairwise_lt h).imp fun hlt => UInt32.ne_of_lt hlt
    rw [hset, Set.ncard_coe_finset, List.toFinset_card_of_nodup hnodup, List.length_map,
      size_eq_length h]
  isEmpty := by
    rw [LinkTable.isEmpty, decide_eq_true_eq, size_eq_length h, List.length_eq_zero_iff]
    constructor
    · intro hnil key
      by_contra hsome
      simpa [hnil] using (mem_keys h).2 hsome
    · intro hnone
      rw [← List.map_eq_nil_iff (f := Prod.fst), List.eq_nil_iff_forall_not_mem]
      intro key hkey
      exact (mem_keys h).1 hkey (hnone key)
  maxKey? key := by
    rw [LinkTable.maxKey?, getLast?_eq_some_iff (keys_pairwise_lt h)]
    simp only [mem_keys h]
  maxKey?_none := by
    rw [LinkTable.maxKey?, List.getLast?_eq_none_iff, List.eq_nil_iff_forall_not_mem]
    simp only [mem_keys h, ne_eq, not_not]
  maxMember? bit := by
    change (t.toList.filterMap fun entry => entry.2.max?).max? = some bit ↔ _
    rw [max?_eq_some_iff]
    simp only [mem_filterMap_max? h, h.mem_rowSets, links_iff]
    constructor
    · rintro ⟨⟨key, row, hrow, hmax⟩, hgreatest⟩
      have hmem := (WordSet.max?_eq_some_iff (h.bounded_of_row? hrow)).1 hmax
      refine ⟨⟨key, row, hrow, hmem.1⟩, ?_⟩
      rintro k b ⟨row', hrow', hb⟩
      -- no row has a member above its own greatest one
      cases hmax' : row'.max? with
      | none => exact absurd hb (WordSet.not_mem_of_max?_eq_none hmax' b)
      | some top =>
        have htop := (WordSet.max?_eq_some_iff (h.bounded_of_row? hrow')).1 hmax'
        exact UInt32.le_trans (htop.2 b hb) (hgreatest top ⟨k, row', hrow', hmax'⟩)
    · rintro ⟨⟨key, row, hrow, hbit⟩, hgreatest⟩
      refine ⟨⟨key, row, hrow, ?_⟩, ?_⟩
      · rw [WordSet.max?_eq_some_iff (h.bounded_of_row? hrow)]
        exact ⟨hbit, fun b hb => hgreatest key b ⟨row, hrow, hb⟩⟩
      · rintro b ⟨k, row', hrow', hmax'⟩
        have hb := (WordSet.max?_eq_some_iff (h.bounded_of_row? hrow')).1 hmax'
        exact hgreatest k b ⟨row', hrow', hb.1⟩
  maxMember?_none := by
    change (t.toList.filterMap fun entry => entry.2.max?).max? = none ↔ _
    rw [List.max?_eq_none_iff, List.eq_nil_iff_forall_not_mem]
    simp only [Finset.eq_empty_iff_forall_notMem, mem_filterMap_max? h, h.mem_rowSets,
      links_iff]
    constructor
    · rintro hnone key bit ⟨row, hrow, hbit⟩
      cases hmax : row.max? with
      | none => exact WordSet.not_mem_of_max?_eq_none hmax bit hbit
      | some top => exact hnone top ⟨key, row, hrow, hmax⟩
    · rintro hnone bit ⟨key, row, hrow, hmax⟩
      have hmem := (WordSet.max?_eq_some_iff (h.bounded_of_row? hrow)).1 hmax
      exact hnone key bit ⟨row, hrow, hmem.1⟩
  linkCount := by
    -- links are listed once each, and counted row by row
    have hset : {link : UInt32 × UInt32 | link.2 ∈ t.rowSets.members link.1} =
        (t.links.toFinset : Set (UInt32 × UInt32)) := by
      ext ⟨key, bit⟩
      rw [List.coe_toFinset, Set.mem_ofPred_eq, Set.mem_ofPred_eq, h.mem_rowSets, mem_links h]
    rw [hset, Set.ncard_coe_finset, List.toFinset_card_of_nodup (nodup_links h),
      linkCount_eq_length]

/-! ## §4 What calls do to the rows -/

/-- Writing a row gives its key another set. -/
theorem rowSets_written (t : LinkTable) (key : UInt32) (change : WordSet → WordSet) :
    (t.written key change).rowSets = t.rowSets.put key (change (t.row key)).members := by
  funext k
  unfold rowSets Rows.put
  rw [row?_written]
  -- the map is changed at the key and nowhere else
  by_cases hk : k = key
  · subst hk
    simp
  · simp [hk]

theorem rowSets_roomFor (t : LinkTable) (wanted : Nat) :
    (t.roomFor wanted).rowSets = t.rowSets := by
  funext key
  rw [rowSets, rowSets, row?_roomFor]

theorem rowSets_insert (h : t.WellFormed) {key bit : UInt32} {fresh : Bool}
    (hcall : insert key bit t = .ok fresh u) :
    u.rowSets = t.rowSets.put key (Insert.insert bit (t.rowSets.members key)) := by
  obtain ⟨rfl, -, -⟩ := insert_eq_ok hcall
  have hrow := h.rows key
  rw [rowSets_written, members_rowSets]
  congr 1
  ext b
  rw [(hrow.insert bit).mem_members, Finset.mem_insert, hrow.mem_members, WordSet.mem_iff,
    WordSet.contains_insert, Bool.or_eq_true, decide_eq_true_eq, ← WordSet.mem_iff]

theorem rowSets_addRow (h : t.WellFormed) {key : UInt32} {bits : WordSet} (hbits : bits.Bounded)
    {a : Unit} (hcall : addRow key bits t = .ok a u) :
    u.rowSets = t.rowSets.put key (t.rowSets.members key ∪ bits.members) := by
  obtain ⟨rfl, -⟩ := addRow_eq_ok hcall
  have hrow := h.rows key
  rw [rowSets_written, members_rowSets]
  congr 1
  ext b
  rw [(hrow.union hbits).mem_members, Finset.mem_union, hrow.mem_members, hbits.mem_members,
    WordSet.mem_iff, WordSet.contains_union, Bool.or_eq_true, ← WordSet.mem_iff, ← WordSet.mem_iff]

theorem rowSets_reserve {wanted : Nat} {a : Unit} (hcall : reserve wanted t = .ok a u) :
    u.rowSets = t.rowSets := by
  obtain rfl := reserve_eq_ok hcall
  exact rowSets_roomFor t wanted

theorem rowSets_amend (h : t.WellFormed) {key : UInt32} {writes : List WordSet.Edit} {a : Unit}
    (hcall : amend key (WordSet.applyAll writes) t = .ok a u) :
    u.rowSets = t.rowSets.put key (t.rowSets.members key ∪ WordSet.brought writes) := by
  rw [amend_apply] at hcall
  split at hcall
  case isTrue => cases hcall
  case isFalse hslots =>
    cases hcall
    have hrow := h.rows key
    -- the charge does not show in the rows
    change (t.written key (WordSet.applyAll writes)).rowSets = _
    rw [rowSets_written, members_rowSets]
    congr 1
    ext b
    rw [(hrow.applyAll writes).mem_members, Finset.mem_union, hrow.mem_members,
      WordSet.mem_applyAll]

/-- Merging gives every key what it has in either table, if it has a row in one of them. -/
theorem rowSets_merge (h : t.WellFormed) {other : LinkTable} (hother : other.WellFormed) {a : Unit}
    (hcall : merge other t = .ok a u) : u.rowSets = t.rowSets.merge other.rowSets := by
  obtain ⟨wanted, hrun⟩ := merge_eq_ok hcall
  -- the keys done so far have both, the other keys are as they were
  have hdone := Step.forM_induction
    (fun done v => v.WellFormed ∧
      (∀ key row, (key, row) ∈ done →
        v.rowSets key = some (t.rowSets.members key ∪ row.members)) ∧
      ∀ key, (∀ row, (key, row) ∉ done) → v.rowSets key = t.rowSets key)
    ⟨h.roomFor wanted, by simp, fun key _ => by rw [rowSets_roomFor]⟩ ?carry hrun
  case carry =>
    rintro done ⟨key, row⟩ rest v w hsplit ⟨hwf, hboth, hold⟩ hadd
    have hascending := toList_pairwise_lt hother
    have hmem : (key, row) ∈ other.toList := by simp [hsplit]
    have hrow := hother.bounded_of_row? ((mem_toList hother).1 hmem)
    have hsets := rowSets_addRow hwf hrow hadd
    -- every key is listed once
    have hnew (row' : WordSet) : (key, row') ∉ done := by
      intro hearlier
      rw [hsplit, List.pairwise_append] at hascending
      exact UInt32.lt_irrefl key (hascending.2.2 _ hearlier _ List.mem_cons_self)
    refine ⟨(gains_addRow hrow hadd).wellFormed hwf, fun k row' hk => ?_, fun k hk => ?_⟩
    · rw [hsets, Rows.put]
      rcases List.mem_append.1 hk with hk | hk
      · have hne : k ≠ key := fun heq => hnew row' (heq ▸ hk)
        rw [Function.update_of_ne hne]
        exact hboth k row' hk
      · obtain ⟨rfl, rfl⟩ := Prod.mk.inj (List.mem_singleton.1 hk)
        have hmembers : v.rowSets.members k = t.rowSets.members k := by
          unfold Rows.members
          rw [hold k hnew]
        rw [Function.update_self, hmembers]
    · have hne : k ≠ key := by
        rintro rfl
        exact hk row (List.mem_append_right _ List.mem_cons_self)
      rw [hsets, Rows.put, Function.update_of_ne hne]
      exact hold k fun row' hk' => hk row' (List.mem_append_left _ hk')
  obtain ⟨-, hboth, hold⟩ := hdone
  funext key
  unfold Rows.merge
  -- keys without a row in the other table have not been done, all others have
  cases hrow : other.row? key with
  | none =>
    have hnone : other.rowSets key = none := rowSets_eq_none_iff.2 hrow
    have hkept := hold key fun row hmem => by
      rw [(mem_toList hother).1 hmem] at hrow
      cases hrow
    rw [hkept, hnone, Option.merge_none_right]
  | some row =>
    have hsome : other.rowSets key = some row.members := by rw [rowSets, hrow, Option.map_some]
    rw [hboth key row ((mem_toList hother).2 hrow), hsome]
    unfold Rows.members
    cases t.rowSets key with
    | none => simp
    | some set => simp

/-! ## §5 Rows that stay as they are -/

/-- Whether it answers or fails, a step leaves all rows as they are but those of some keys. -/
def ChangesOnly {α : Type} (x : Step LinkTable α) (t : LinkTable) (keys : UInt32 → Prop) : Prop :=
  ∀ key, ¬keys key → (x.after t).row? key = t.row? key

theorem changesOnly_write (t : LinkTable) (key : UInt32) (rowBytes : Nat)
    (change : WordSet → WordSet) : ChangesOnly (write key rowBytes change) t (· = key) := by
  intro k hk
  have hwritten : (t.written key change).row? k = t.row? k := by rw [row?_written, if_neg hk]
  exact holds_after_write (fun u => u.row? k = t.row? k) rfl hwritten

theorem changesOnly_insert (t : LinkTable) (key bit : UInt32) :
    ChangesOnly (insert key bit) t (· = key) := by
  intro k hk
  rw [after_insert]
  exact changesOnly_write t key _ _ k hk

theorem changesOnly_addRow (t : LinkTable) (key : UInt32) (bits : WordSet) :
    ChangesOnly (addRow key bits) t (· = key) :=
  changesOnly_write t key _ _

theorem changesOnly_amend (t : LinkTable) (key : UInt32) (change : WordSet → WordSet) :
    ChangesOnly (amend key change) t (· = key) := by
  intro k hk
  have hamended : (t.amended key change).row? k = t.row? k := by rw [row?_amended, if_neg hk]
  exact holds_after_amend (fun u => u.row? k = t.row? k) rfl hamended

theorem changesOnly_reserve (t : LinkTable) (wanted : Nat) :
    ChangesOnly (reserve wanted) t fun _ => False := by
  intro k _
  exact holds_after_reserve (fun u => u.row? k = t.row? k) rfl (row?_roomFor t wanted k)

/-- Merging changes the rows that the other table has. -/
theorem changesOnly_merge (t : LinkTable) {other : LinkTable} (hother : other.WellFormed) :
    ChangesOnly (merge other) t fun key => other.row? key ≠ none := by
  intro k hk
  have hnone : other.row? k = none := not_not.1 hk
  rw [merge_eq_mergeRows]
  apply after_mergeRows_induction (fun u => u.row? k = t.row? k) rfl
  · intro wanted
    exact changesOnly_reserve t wanted k id
  · rintro ⟨key, row⟩ hentry u hu
    -- the keys that rows are added under all have one in the other table
    have hne : ¬k = key := by
      rintro rfl
      rw [(mem_toList hother).1 hentry] at hnone
      cases hnone
    rw [changesOnly_addRow u key row k hne, hu]

/-! ## §6 Every history of calls that answer -/

/-- The rows of a table, as sets, are those that its history says. -/
theorem History.rowSets_table {h : History} (hs : h.Succeeds) : h.table.rowSets = h.rows := by
  -- each call on the table does to its rows what it does to the map
  induction h with
  | new limit => rfl
  | clone h ih => exact ih hs
  | insert h key bit ih =>
    obtain ⟨fresh, hcall⟩ := Step.exists_of_isOk hs.2
    rw [table, rowSets_insert h.wellFormed_table hcall, ih hs.1, rows]
  | addRow h key bits ih =>
    obtain ⟨⟨⟩, hcall⟩ := Step.exists_of_isOk hs.2
    have hbits : bits.set.members = bits.members := by
      ext b
      rw [bits.bounded_set.mem_members, bits.mem_set_iff]
    rw [table, rowSets_addRow h.wellFormed_table bits.bounded_set hcall, ih hs.1, hbits, rows]
  | merge h other ih ihOther =>
    obtain ⟨⟨⟩, hcall⟩ := Step.exists_of_isOk hs.2.2
    rw [table, rowSets_merge h.wellFormed_table other.wellFormed_table hcall, ih hs.1,
      ihOther hs.2.1, rows]
  | reserve h wanted ih =>
    obtain ⟨⟨⟩, hcall⟩ := Step.exists_of_isOk hs.2
    rw [table, rowSets_reserve hcall, ih hs.1, rows]
  | amend h key writes ih =>
    obtain ⟨⟨⟩, hcall⟩ := Step.exists_of_isOk hs.2
    rw [table, rowSets_amend h.wellFormed_table hcall, ih hs.1, rows]

/-- After any history of calls that answer, a table is the finite map that its history says: in all
that it can be asked, in what an insertion tells, and in the rows that a further call leaves alone,
however it may grow. -/
theorem History.shows_rows (h : History) (hs : h.Succeeds) :
    h.table.Shows h.rows ∧
    (∀ key bit fresh u, LinkTable.insert key bit h.table = .ok fresh u →
      (fresh = true ↔ bit ∉ h.rows.members key)) ∧
    (∀ key bit, ChangesOnly (LinkTable.insert key bit) h.table (· = key)) ∧
    (∀ key bits, ChangesOnly (LinkTable.addRow key bits) h.table (· = key)) ∧
    (∀ key change, ChangesOnly (LinkTable.amend key change) h.table (· = key)) ∧
    (∀ wanted, ChangesOnly (LinkTable.reserve wanted) h.table fun _ => False) ∧
    ∀ other : History, ChangesOnly (LinkTable.merge other.table) h.table
      fun key => other.table.row? key ≠ none := by
  have hwf := h.wellFormed_table
  have hrows := rowSets_table hs
  refine ⟨hrows ▸ hwf.shows, fun key bit fresh u hcall => ?_, changesOnly_insert _,
    changesOnly_addRow _, changesOnly_amend _, changesOnly_reserve _,
    fun other => changesOnly_merge _ other.wellFormed_table⟩
  rw [(insert_eq_ok hcall).2.2, ← hrows, hwf.mem_rowSets]

/-- Rows written in all ways, one of them without members, in a copy that another table is merged
into. -/
private def atlas : History :=
  .merge
    (.clone (.amend (.addRow (.insert (.new 8192) 3 70) 40 (.withCapacity 600)) 3
      [.insert 5, .union (.ofList [64, 600])]))
    (.reserve (.insert (.insert (.new 4096) 7 1) 3 5) 20)

theorem History.shows_rows_atlas :
    atlas.Succeeds ∧ atlas.table.Shows atlas.rows ∧ atlas.rows.members 3 = {5, 64, 70, 600} ∧
      atlas.rows 40 = some ∅ ∧ atlas.rows 8 = none :=
  ⟨by decide +kernel, (shows_rows atlas (by decide +kernel)).1, by decide +kernel,
    by decide +kernel, by decide +kernel⟩

end LinkTable

end Lineage
