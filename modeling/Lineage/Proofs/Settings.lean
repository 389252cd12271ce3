import Lineage.Proofs.ByteSize
import Lineage.Proofs.Json.Tree
import Lineage.Settings.Transport

/-!
# Settings survive their own text

What a reader makes of settings that were written.

- `ofJson?_toJson`: every field but the memory limit is read as it was, and the limit as its text;
- `read_write`: what becomes of settings that a pass can follow.
-/

namespace Lineage.Settings

theorem validate_eq_ok_iff (s : Settings) : s.validate = .ok () ↔
    (s.levels ≠ 0 ∨ s.nested = true) ∧ s.levels ≤ mostLevels ∧ 0 < s.limit := by
  unfold validate
  -- the three requirements are checked one after the other, and each refuses on its own
  split
  case isTrue hlevel => simp [hlevel]
  case isFalse hlevel =>
    split
    case isTrue hmost =>
      have hrefused : ¬s.levels ≤ mostLevels := Nat.not_le.2 hmost
      simp [hrefused]
    case isFalse hmost =>
      have haccepted : s.levels ≤ mostLevels := Nat.not_lt.1 hmost
      split
      case isTrue hlimit => simp [hlimit]
      case isFalse hlimit =>
        have hneeded : s.levels ≠ 0 ∨ s.nested = true := by
          rw [not_and_or, not_not] at hlevel
          exact hlevel
        exact iff_of_true rfl ⟨hneeded, haccepted, Nat.pos_of_ne_zero hlimit⟩

/-! ## §1 Fields -/

theorem levels?_ofNat {n : Nat} (hn : n < UInt64.size) : levels? (.ofNat n) = some n := by
  rw [levels?, Json.nat?_ofNat, Option.filter_some, if_pos (decide_eq_true hn)]

theorem mode?_ofText (mode : Mode) : mode? (.ofText mode.name) = some mode := by
  rw [mode?, Json.variant?_ofText]
  cases mode <;> rfl

theorem strategy?_ofText (strategy : ScanStrategy) :
    strategy? (.ofText strategy.name) = some strategy := by
  rw [strategy?, Json.variant?_ofText]
  cases strategy <;> rfl

theorem ofJson?_ofText (text : String) :
    ByteSize.ofJson? (.ofText text) = ByteSize.parse? text := by
  change (Json.ofText text).text? >>= ByteSize.parse? = _
  rw [Json.text?_ofText]
  rfl

theorem written_toJson (s : Settings) : s.toJson.Written := by
  apply Json.written_ofFields
  simp only [fieldNames, List.zip_cons_cons, List.zip_nil_right, List.forall_mem_cons]
  exact ⟨Json.written_ofNat _, Json.written_ofText _, .bool _, .bool _, Json.written_ofText _,
    .bool _, Json.written_ofText _, nofun⟩

/-- All fields are read as they were, and the memory limit as its text. -/
theorem ofJson?_toJson (s : Settings) (hlevels : s.levels < UInt64.size) :
    ofJson? s.toJson = (ByteSize.parse? s.memoryLimit.render).map fun limit =>
      { s with memoryLimit := limit } := by
  -- the record gives the fields back in the order in which they are read
  have hrecord : s.toJson.record? fieldNames = some (List.map some
      [.ofNat s.levels, .ofText s.mode.name, .bool s.nested, .bool s.resilient,
        .ofText s.strategy.name, .bool s.forwardHits, .ofText s.memoryLimit.render]) :=
    Json.record?_ofFields (by decide) rfl
  unfold ofJson?
  rw [hrecord]
  simp only [List.map_cons, List.map_nil, field?, levels?_ofNat hlevels, mode?_ofText,
    strategy?_ofText, ofJson?_ofText, Json.bool?, Option.bind_eq_bind, Option.bind_some,
    Option.pure_def]
  cases ByteSize.parse? s.memoryLimit.render <;> rfl

/-! ## §2 Whole texts -/

theorem parse?_write (s : Settings) (hlevels : s.levels < UInt64.size) :
    (Json.parse? s.write >>= ofJson?) =
      (ByteSize.parse? s.memoryLimit.render).map fun limit => { s with memoryLimit := limit } := by
  rw [write, s.written_toJson.parse?_render_bind]
  exact s.ofJson?_toJson hlevels

/-- Settings that a pass can follow come back from their text with all fields as they were but the
memory limit, which is what its text says.  It is at most 51 thousandths away of the unit that it is
written in; from whole numbers of tenths only by what doubles lose, and whole numbers of units, so
all limits below a thousand bytes, are the same.  The greatest limits are written in a unit that is
not read. -/
theorem read_write (s : Settings) (hs : s.validate = .ok ()) :
    (s.limit < 1152921507377637248 → ∃ limit : ByteSize,
      ByteSize.parse? s.memoryLimit.render = some limit ∧
      read s.write = .ok { s with memoryLimit := limit } ∧
      limit.Near s.memoryLimit ∧
      (ByteSize.unit s.limit ∣ s.limit → read s.write = .ok s)) ∧
    (1152921507377637248 ≤ s.limit → read s.write =
      .error ((Fault.ofCause .malformed).under "Failed to parse engine configuration")) := by
  obtain ⟨hneeded, hmost, hpos⟩ := (validate_eq_ok_iff s).1 hs
  have hlevels : s.levels < UInt64.size := Nat.lt_of_le_of_lt hmost (by decide)
  have hparse := s.parse?_write hlevels
  obtain ⟨hreadable, hgreat⟩ := ByteSize.parse?_render s.memoryLimit hpos
  constructor
  · intro hlimit
    obtain ⟨limit, hread, hnear⟩ := hreadable hlimit
    have hvalid : ({ s with memoryLimit := limit } : Settings).validate = .ok () := by
      -- a limit of at least one unit does not come back as nothing
      have hunit := ByteSize.unit_le hpos hlimit
      have hdistance := neg_abs_le ((limit.bytes.toNat : ℤ) - s.limit)
      have hclose : 1000 * |(limit.bytes.toNat : ℤ) - s.limit| ≤ 51 * ByteSize.unit s.limit :=
        hnear.close
      refine (validate_eq_ok_iff _).2 ⟨hneeded, hmost, ?_⟩
      change 0 < limit.bytes.toNat
      omega
    -- so what is read is checked again and passes
    have hsettings : read s.write = .ok { s with memoryLimit := limit } := by
      unfold read
      rw [hparse, hread, Option.map_some]
      simp only [hvalid]
      rfl
    refine ⟨limit, hread, hsettings, hnear, fun hdvd => ?_⟩
    rw [hsettings, hnear.units hdvd]
  · intro hlimit
    unfold read
    rw [hparse, hgreat hlimit]
    rfl

/-- Settings with every field at a value of its own, and a limit of whole units. -/
private def thorough : Settings :=
  ⟨7, .ancestors, true, true, .scan, true, .megabytes 64⟩

private theorem thorough_valid : thorough.validate = .ok () ∧
    thorough.limit = 64000000 ∧ ByteSize.unit 64000000 = 1000000 := by
  decide +kernel

theorem read_write_thorough : read thorough.write = .ok thorough := by
  obtain ⟨hvalid, hlimit, hunit⟩ := thorough_valid
  obtain ⟨limit, -, -, -, hwhole⟩ := (read_write thorough hvalid).1 (by omega)
  apply hwhole
  rw [hlimit, hunit]
  decide

/-- A limit that is no whole number of tenths of its unit. -/
private def uneven : Settings := { default with memoryLimit := ⟨1001⟩ }

private theorem uneven_read : uneven.validate = .ok () ∧
    read uneven.write = .ok { uneven with memoryLimit := ⟨1000⟩ } := by
  decide +kernel

/-- Not all settings that a pass can follow come back as they were. -/
theorem not_read_write : ¬∀ s : Settings, s.validate = .ok () → read s.write = .ok s := by
  -- 1001 bytes are written in thousands, with one digit after the point
  intro hsurvives
  have hsame := hsurvives uneven uneven_read.1
  rw [uneven_read.2] at hsame
  exact absurd hsame (by decide)

end Lineage.Settings
