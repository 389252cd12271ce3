import Lineage.Index.JoinChain.Transport
import Lineage.Proofs.Json.Tree

/-!
# Join chains survive their own text

A join chain is read back as it was written, whatever characters its names and terms are made of,
with any number of key columns and filters, and with or without a filter of main documents.

- `FieldTerm.ofJson?_toJson`, `JoinChain.ofJson?_toJson`: values give back what they were made from;
- `JoinChain.read_of_written`: whole texts.
-/

namespace Lineage.Index

namespace FieldTerm

theorem written_toJson (f : FieldTerm) : f.toJson.Written := by
  apply Json.written_ofFields
  simp only [fieldNames, List.zip_cons_cons, List.zip_nil_right, List.forall_mem_cons]
  exact ⟨Json.written_ofText _, Json.written_ofText _, nofun⟩

theorem ofJson?_toJson (f : FieldTerm) : ofJson? f.toJson = some f := by
  have hrecord : f.toJson.record? fieldNames =
      some (List.map some [.ofText f.field, .ofText f.term]) :=
    Json.record?_ofFields (by decide) rfl
  unfold ofJson?
  rw [hrecord]
  simp

end FieldTerm

namespace JoinChain

/-- The items of an array are read as they were, if each of them is. -/
theorem listOf?_map {α : Type} {read : Json → Option α} {write : α → Json}
    (h : ∀ x, read (write x) = some x) (xs : List α) :
    listOf? read (.array (xs.map write)) = some xs := by
  have hitems : xs.mapM (read ∘ write) = some (xs.map id) := Json.mapM_eq_some fun x _ => h x
  change (xs.map write).mapM read = some xs
  rw [List.mapM_map, hitems, List.map_id]

/-- The value of a filter is not mistaken for the absence of one. -/
theorem filterOrNull?_toJson (filter : Option FieldTerm) :
    filterOrNull? ((filter.map FieldTerm.toJson).getD .null) = some filter := by
  cases filter with
  | none => rfl
  | some f =>
    change (FieldTerm.ofJson? f.toJson).map some = _
    rw [f.ofJson?_toJson]
    rfl

theorem written_toJson (c : JoinChain) : c.toJson.Written := by
  apply Json.written_ofFields
  simp only [fieldNames, List.zip_cons_cons, List.zip_nil_right, List.forall_mem_cons]
  refine ⟨.array ?_, .array ?_, ?_, nofun⟩
  · intro item hitem
    obtain ⟨column, -, rfl⟩ := List.mem_map.1 hitem
    exact Json.written_ofText column
  · intro item hitem
    obtain ⟨filter, -, rfl⟩ := List.mem_map.1 hitem
    exact filter.written_toJson
  · cases c.mainDocumentFilter with
    | none => exact .null
    | some filter => exact filter.written_toJson

theorem ofJson?_toJson (c : JoinChain) : ofJson? c.toJson = some c := by
  have hrecord : c.toJson.record? fieldNames = some (List.map some
      [.array (c.keyColumns.map .ofText), .array (c.ancestorFilters.map FieldTerm.toJson),
        (c.mainDocumentFilter.map FieldTerm.toJson).getD .null]) :=
    Json.record?_ofFields (by decide) rfl
  unfold ofJson?
  rw [hrecord]
  simp only [List.map_cons, List.map_nil, Option.map_some, Option.getD_some,
    listOf?_map Json.text?_ofText, listOf?_map FieldTerm.ofJson?_toJson, filterOrNull?_toJson,
    Option.bind_eq_bind, Option.bind_some, Option.pure_def]

/-- Every join chain comes back from its text as it was. -/
theorem read_of_written (c : JoinChain) : read c.write = .ok c := by
  unfold read write
  rw [c.written_toJson.parse?_render_bind, c.ofJson?_toJson]

end JoinChain

end Lineage.Index
